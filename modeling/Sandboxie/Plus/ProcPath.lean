import Sandboxie.Common.Text
import Sandboxie.Lib.Chase

/-!
# The processes of a box in the tree of boxes

A process stands in the tree below its parent.  `MakeProcPath` lists the parents, the nearest
one last, behind the name of the box; `TestProcPath` says whether a node already stands there.
-/

namespace Sandboxie.ProcTree

open List

/-- A part of a path: the name of a group or of a box, or a process. -/
inductive PathPart
  | name (s : List WChar)
  | pid (id : UInt32)
deriving DecidableEq

structure BoxedProcess where
  processId : UInt32
  parentPid : UInt32
deriving DecidableEq

/-- The processes of a box, each under its own id. -/
structure ProcessList where
  procs : List BoxedProcess
  keyed : (procs.map BoxedProcess.processId).Nodup

namespace ProcessList

variable (L : ProcessList)

def value (id : UInt32) : Option BoxedProcess := L.procs.find? (·.processId == id)

/-- `pParent`, where it is there and not the process itself. -/
def parent (p : BoxedProcess) : Option BoxedProcess :=
  match L.value p.parentPid with
  | some q => if p.parentPid ≠ p.processId then some q else none
  | none => none

variable {L} {p q : BoxedProcess}

theorem of_parent (h : L.parent p = some q) :
    q ∈ L.procs ∧ q.processId = p.parentPid ∧ p.parentPid ≠ p.processId := by
  unfold parent value at h
  split at h
  · rename_i r hr
    split_ifs at h with hne
    cases h
    exact ⟨mem_of_find?_eq_some hr, by simpa using find?_some hr, hne⟩
  · cases h

theorem eq_of_id (hp : p ∈ L.procs) (hq : q ∈ L.procs) (h : p.processId = q.processId) : p = q :=
  inj_on_of_nodup_map L.keyed hp hq h

def absent (L : ProcessList) (path : List PathPart) : List BoxedProcess :=
  L.procs.filter fun q => PathPart.pid q.processId ∉ path

theorem absent_lt {path : List PathPart} (h : L.parent p = some q)
    (hpath : PathPart.pid p.parentPid ∉ path) :
    (L.absent (.pid p.parentPid :: path)).length < (L.absent path).length := by
  obtain ⟨hq, hid, -⟩ := of_parent h
  rw [← hid] at hpath ⊢
  have hfilter : L.absent (.pid q.processId :: path) =
      (L.absent path).filter fun r => r.processId ≠ q.processId := by
    simp [absent, filter_filter]
  rw [hfilter, length_filter_lt_length_iff_exists]
  exact ⟨q, mem_filter.mpr ⟨hq, by simpa using hpath⟩, by simp⟩

end ProcessList

open ProcessList Relation

def makeProcPathFrom (L : ProcessList) (p : BoxedProcess) (path : List PathPart) :
    List PathPart :=
  match _ : L.parent p with
  | some q =>
    if _ : PathPart.pid p.parentPid ∉ path then
      makeProcPathFrom L q (.pid p.parentPid :: path)
    else path
  | none => path
termination_by (L.absent path).length
decreasing_by exact absent_lt ‹_› ‹_›

def makeProcPath (L : ProcessList) (boxName : List WChar) (p : BoxedProcess) : List PathPart :=
  .name boxName :: makeProcPathFrom L p []

def testProcPathFrom (L : ProcessList) (path : List PathPart) (p : BoxedProcess)
    (index : Nat) : Bool :=
  match L.parent p with
  | some q =>
    if path.length ≤ index ∨ path[path.length - index]? ≠ some (.pid p.parentPid) then false
    else testProcPathFrom L path q (index + 1)
  | none => path.length == index
termination_by path.length - index

def testProcPath (L : ProcessList) (path : List PathPart) (boxName : List WChar)
    (p : BoxedProcess) : Bool :=
  match path with
  | [] => false
  | part :: _ => if .name boxName ≠ part then false else testProcPathFrom L path p 1

/-- Whether `Sync` makes the node of a process anew, where `old` is the path of the one it has. -/
def makesNode (tree : Bool) (L : ProcessList) (boxName : List WChar) (path : List PathPart)
    (old : Option (List PathPart)) (p : BoxedProcess) : Bool :=
  match old with
  | none => true
  | some node =>
    if tree then !testProcPath L (node.drop path.length) boxName p else !node.isEmpty

def nodePath (tree : Bool) (L : ProcessList) (boxName : List WChar) (path : List PathPart)
    (p : BoxedProcess) : List PathPart :=
  if tree then path ++ makeProcPath L boxName p else []

/-- The nodes of processes that `Sync` makes for the box at `path`, each with its path. -/
def sync (tree : Bool) (L : ProcessList) (boxName : List WChar) (path : List PathPart)
    (old : UInt32 → Option (List PathPart)) : List (UInt32 × List PathPart) :=
  (L.procs.filter fun p => makesNode tree L boxName path (old p.processId) p).map
    fun p => (p.processId, nodePath tree L boxName path p)

def synced (old : UInt32 → Option (List PathPart)) (added : List (UInt32 × List PathPart))
    (id : UInt32) : Option (List PathPart) :=
  (added.lookup id).or (old id)

/-! ### The way up -/

def parts (l : List BoxedProcess) : List PathPart := l.tail.map fun q => .pid q.processId

variable {L : ProcessList} {boxName : List WChar} {p q : BoxedProcess} {n : Nat}
variable {l : List BoxedProcess} {path rest : List PathPart}

theorem chase_cases (hl : chase L.parent n p = some l) :
    (L.parent p = none ∧ l = [p]) ∨ ∃ q m t, L.parent p = some q ∧
      chase L.parent m q = some (q :: t) ∧ l = p :: q :: t := by
  cases n with
  | zero => cases hl
  | succ n =>
    cases hnext : L.parent p with
    | none => exact Or.inl ⟨rfl, by simpa [chase, hnext, eq_comm] using hl⟩
    | some q =>
      obtain ⟨m, l', hl', rfl⟩ := of_chase_next hnext hl
      have hhead : ∃ t, l' = q :: t := by
        cases m with
        | zero => cases hl'
        | succ m =>
          cases hq : L.parent q with
          | none => exact ⟨[], by simpa [chase, hq, eq_comm] using hl'⟩
          | some r =>
            obtain ⟨-, t, -, rfl⟩ := of_chase_next hq hl'
            exact ⟨t, rfl⟩
      obtain ⟨t, rfl⟩ := hhead
      exact Or.inr ⟨q, m, t, rfl, hl', rfl⟩

theorem chase_mem (hl : chase L.parent n p = some l) (hp : p ∈ L.procs) : ∀ q ∈ l, q ∈ L.procs := by
  intro q hq
  rcases ReflTransGen.cases_tail (chase_reaches hl hq) with rfl | ⟨c, -, hc⟩
  · exact hp
  · exact (of_parent hc).1

theorem nodup_ids (hl : chase L.parent n p = some l) (hp : p ∈ L.procs) :
    (l.map BoxedProcess.processId).Nodup := by
  refine List.Nodup.map_on (fun x hx y hy h => ?_) (pairwise_of_chase (fun x y h => by rw [h]) hl)
  exact eq_of_id (chase_mem hl hp x hx) (chase_mem hl hp y hy) h

theorem makeProcPathFrom_eq (hl : chase L.parent n p = some l)
    (hnodup : (l.map BoxedProcess.processId).Nodup)
    (hpath : ∀ q ∈ l.tail, PathPart.pid q.processId ∉ path) :
    makeProcPathFrom L p path = (parts l).reverse ++ path := by
  induction l generalizing p n path with
  | nil => rcases chase_cases hl with ⟨_, h⟩ | ⟨_, _, _, _, _, h⟩ <;> cases h
  | cons a l ih =>
    rcases chase_cases hl with ⟨hnone, h⟩ | ⟨q, m, t, hsome, hq, h⟩
    · obtain ⟨rfl, rfl⟩ := List.cons.inj h
      rw [makeProcPathFrom, hnone]
      rfl
    · obtain ⟨rfl, rfl⟩ := List.cons.inj h
      obtain ⟨-, hid, -⟩ := of_parent hsome
      have hnew : PathPart.pid a.parentPid ∉ path := hid ▸ hpath q mem_cons_self
      have htail := (nodup_cons.mp hnodup).2
      rw [makeProcPathFrom, hsome]
      simp only [hnew, not_false_eq_true, dite_true]
      rw [ih hq htail fun r hr hmem => ?_]
      · simp [parts, hid]
      · rcases mem_cons.mp hmem with h | h
        · refine (nodup_cons.mp htail).1 (mem_map.mpr ⟨r, hr, ?_⟩)
          rw [hid]
          exact PathPart.pid.inj h
        · exact hpath r (mem_cons_of_mem _ hr) h

theorem makeProcPath_eq (hl : chase L.parent n p = some l) (hp : p ∈ L.procs) :
    makeProcPath L boxName p = .name boxName :: (parts l).reverse := by
  rw [makeProcPath, makeProcPathFrom_eq hl (nodup_ids hl hp) (by simp), append_nil]

theorem testProcPathFrom_iff {part : PathPart} {j : Nat} (hj : j ≤ rest.length) :
    testProcPathFrom L (part :: rest) p (rest.length + 1 - j) = true ↔
      ∃ n l, chase L.parent n p = some l ∧ rest.take j = (parts l).reverse := by
  induction j generalizing p with
  | zero =>
    rw [testProcPathFrom]
    cases hnext : L.parent p with
    | none => simpa using ⟨1, [p], chase_end hnext, rfl⟩
    | some q =>
      simp only [length_cons, Nat.sub_zero, Nat.le_refl, true_or, if_true, Bool.false_eq_true,
        take_zero, false_iff]
      rintro ⟨n, l, hl, htake⟩
      rcases chase_cases hl with ⟨h, -⟩ | ⟨r, m, t, -, -, rfl⟩
      · exact nomatch hnext.symm.trans h
      · simp [parts] at htake
  | succ j ih =>
    have hget : (part :: rest)[rest.length + 1 - (rest.length + 1 - (j + 1))]? = rest[j]? := by
      rw [show rest.length + 1 - (rest.length + 1 - (j + 1)) = j + 1 by omega]
      rfl
    have hj' : j < rest.length := hj
    have htake : rest.take (j + 1) = rest.take j ++ [rest[j]] := (take_concat_get' ..).symm
    rw [testProcPathFrom]
    cases hnext : L.parent p with
    | none =>
      have hne : ¬ rest.length + 1 = rest.length + 1 - (j + 1) := by omega
      simp only [length_cons, beq_iff_eq, hne, false_iff, htake]
      rintro ⟨n, l, hl, h⟩
      rcases chase_cases hl with ⟨-, rfl⟩ | ⟨r, m, t, hr, -, -⟩
      · exact append_ne_nil_of_right_ne_nil _ (cons_ne_nil _ _) h
      · exact nomatch hnext.symm.trans hr
    | some q =>
      obtain ⟨-, hid, -⟩ := of_parent hnext
      have hlt : ¬ rest.length + 1 ≤ rest.length + 1 - (j + 1) := by omega
      simp only [length_cons, hget, hlt, false_or, getElem?_eq_getElem hj',
        Option.some.injEq, ne_eq, ite_not]
      rw [show rest.length + 1 - (j + 1) + 1 = rest.length + 1 - j by omega]
      constructor
      · intro h
        split_ifs at h with hpart
        obtain ⟨n, l, hl, hparts⟩ := (ih (Nat.le_of_lt hj)).mp h
        refine ⟨n + 1, p :: l, by rw [chase_next hnext, hl]; rfl, ?_⟩
        rcases chase_cases hl with ⟨-, rfl⟩ | ⟨r, m, t, -, -, rfl⟩ <;>
          simp [htake, hparts, hpart, parts, hid]
      · rintro ⟨n, l, hl, hparts⟩
        rcases chase_cases hl with ⟨h, -⟩ | ⟨r, m, t, hr, hq, rfl⟩
        · exact nomatch hnext.symm.trans h
        · cases hnext.symm.trans hr
          have hboth :
              rest.take j ++ [rest[j]] = (parts (q :: t)).reverse ++ [.pid q.processId] := by
            rw [← htake, hparts]
            simp [parts]
          obtain ⟨hinit, hlast⟩ := append_inj' hboth rfl
          rw [if_pos (by simpa [hid] using hlast), ih (Nat.le_of_lt hj)]
          exact ⟨m, q :: t, hq, hinit⟩

/-- **`TestProcPath`** accepts the parents behind the name of the box, if they come to an end. -/
theorem testProcPath_iff : testProcPath L path boxName p = true ↔
    ∃ n l, chase L.parent n p = some l ∧ path = .name boxName :: (parts l).reverse := by
  cases path with
  | nil => simp [testProcPath]
  | cons part rest =>
    have hall := @testProcPathFrom_iff L p rest part _ (Nat.le_refl rest.length)
    rw [Nat.add_sub_cancel_left, take_length] at hall
    by_cases hname : PathPart.name boxName = part
    · subst hname
      simp [testProcPath, hall]
    · simp [testProcPath, hname, Ne.symm hname]

/-! ### Paths that stay -/

/-- The paths of a box's processes fit together. -/
structure Consistent (L : ProcessList) : Prop where
  distinct : ∀ p ∈ L.procs, ∀ boxName, (makeProcPath L boxName p).Nodup
  others : ∀ p ∈ L.procs, ∀ boxName, PathPart.pid p.processId ∉ makeProcPath L boxName p
  agree : ∀ p ∈ L.procs, ∀ boxName path,
    testProcPath L path boxName p = true ↔ path = makeProcPath L boxName p
  unchanged : ∀ tree boxName path old,
    sync tree L boxName path (synced old (sync tree L boxName path old)) = []

theorem ends_of_acyclic (hp : p ∈ L.procs)
    (h : ∀ p ∈ L.procs, ¬ TransGen (Follows L.parent) p p) :
    ∃ n l, chase L.parent n p = some l := by
  refine (chase_ends_iff fun h => (of_parent h).1).mpr fun q hq => ?_
  rcases ReflTransGen.cases_tail hq with rfl | ⟨c, -, hc⟩
  · exact h _ hp
  · exact h q (of_parent hc).1

theorem agree_of_chase (hl : chase L.parent n p = some l) (hp : p ∈ L.procs) :
    testProcPath L path boxName p = true ↔ path = makeProcPath L boxName p := by
  rw [testProcPath_iff, makeProcPath_eq hl hp]
  refine ⟨fun ⟨m, l', hl', h⟩ => ?_, fun h => ⟨n, l, hl, h⟩⟩
  rw [h, chase_unique hl hl']

theorem lookup_added {f : BoxedProcess → List PathPart} {ps : List BoxedProcess}
    (hp : p ∈ ps) (hkeyed : (ps.map BoxedProcess.processId).Nodup) (keep : BoxedProcess → Bool) :
    ((ps.filter keep).map fun p => (p.processId, f p)).lookup p.processId =
      if keep p then some (f p) else none := by
  induction ps with
  | nil => cases hp
  | cons a ps ih =>
    obtain ⟨hnot, hkeyed⟩ := nodup_cons.mp hkeyed
    rcases mem_cons.mp hp with rfl | hmem
    · by_cases hk : keep p
      · simp [hk]
      · have hnone : ∀ q ∈ ps, ¬ p.processId = q.processId :=
          fun q hq h => hnot (mem_map.mpr ⟨q, hq, h.symm⟩)
        simp only [filter_cons, hk, if_false, Bool.false_eq_true]
        rw [lookup_eq_none_iff]
        simpa using fun a b q hq _ h _ => h ▸ hnone q hq
    · have hne : ¬ p.processId = a.processId :=
        fun h => hnot (mem_map.mpr ⟨p, hmem, h⟩)
      by_cases hk : keep a
      · simpa [hk, lookup_cons, beq_false_of_ne hne] using ih hmem hkeyed
      · simpa [hk] using ih hmem hkeyed

theorem makeProcPath_nodup (hl : chase L.parent n p = some l) (hp : p ∈ L.procs) :
    (makeProcPath L boxName p).Nodup ∧ PathPart.pid p.processId ∉ makeProcPath L boxName p := by
  have hids : (.pid p.processId :: parts l).Nodup := by
    have hmap := (nodup_ids hl hp).map fun _ _ h => PathPart.pid.inj h
    rcases chase_cases hl with ⟨-, rfl⟩ | ⟨q, m, t, -, -, rfl⟩
    · simp [parts]
    · simpa [parts, Function.comp_def] using hmap
  obtain ⟨hself, hnodup⟩ := nodup_cons.mp hids
  rw [makeProcPath_eq hl hp]
  refine ⟨nodup_cons.mpr ⟨fun h => ?_, nodup_reverse.mpr hnodup⟩, by simpa using hself⟩
  obtain ⟨r, -, hr⟩ := mem_map.mp (mem_reverse.mp h)
  cases hr

theorem sync_synced (h : ∀ p ∈ L.procs, ∃ n l, chase L.parent n p = some l) (tree : Bool)
    (old : UInt32 → Option (List PathPart)) :
    sync tree L boxName path (synced old (sync tree L boxName path old)) = [] := by
  rw [sync, map_eq_nil_iff, filter_eq_nil_iff]
  intro p hp
  obtain ⟨n, l, hl⟩ := h p hp
  rw [synced, sync, lookup_added hp L.keyed]
  by_cases hkeep : makesNode tree L boxName path (old p.processId) p
  · have htest : testProcPath L (makeProcPath L boxName p) boxName p = true :=
      (agree_of_chase hl hp).mpr rfl
    rw [if_pos hkeep]
    cases tree <;> simp [makesNode, nodePath, htest]
  · simp [hkeep]

/-- **The paths fit together** exactly when no process of the box is above itself: the guard
against a way that goes round is in `MakeProcPath` alone. -/
theorem consistent_iff (L : ProcessList) :
    Consistent L ↔ ∀ p ∈ L.procs, ¬ TransGen (Follows L.parent) p p := by
  constructor
  · intro h p hp
    obtain ⟨n, l, hl, -⟩ := testProcPath_iff.mp ((h.agree p hp [] _).mpr rfl)
    exact chase_acyclic hl
  intro h
  have hends := fun p hp => ends_of_acyclic (p := p) hp h
  refine ⟨fun p hp boxName => ?_, fun p hp boxName => ?_, fun p hp boxName path => ?_,
    fun tree boxName path old => sync_synced hends tree old⟩
  all_goals obtain ⟨n, l, hl⟩ := hends p hp
  · exact (makeProcPath_nodup hl hp).1
  · exact (makeProcPath_nodup hl hp).2
  · exact agree_of_chase hl hp

def cycle : ProcessList := ⟨[⟨1, 2⟩, ⟨2, 1⟩], by decide⟩

theorem cycle_inconsistent : ¬ Consistent cycle := by
  intro h
  obtain ⟨n, l, hl, -⟩ := testProcPath_iff.mp ((h.agree ⟨1, 2⟩ (by decide) [] _).mpr rfl)
  have hup : cycle.parent ⟨1, 2⟩ = some ⟨2, 1⟩ := by decide
  have hback : cycle.parent ⟨2, 1⟩ = some ⟨1, 2⟩ := by decide
  exact chase_acyclic hl (.head hup (.single hback))

end Sandboxie.ProcTree
