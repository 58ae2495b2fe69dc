import Sandboxie.Dll.KeyMerge

/-!
# Dummy lists of subkeys

When the rules hide a true key but some path below it may be read, `Key_MergeCacheDummys` makes
the list of its subkeys out of the patterns of the rules.

The loop makes `TruePathLen` longer each time a pattern continues the path, so only the first
such pattern is seen (`mergeCacheDummys_iff`).
-/

namespace Sandboxie.KeyMerge

open Text SortedList List

section Dummys

variable (env : Env) (keyExists : List WChar → Bool)

/-- What a pattern has between its start and the next backslash, or the first star if none
follows. -/
def component (ptr : List WChar) : List WChar :=
  if 92 ∈ ptr then ptr.takeWhile (· ≠ 92) else ptr.takeWhile (· ≠ 42)

/-- `TruePathLen` at the start: a last backslash does not count. -/
def truePathLen (path : List WChar) : Nat :=
  if path.length > 1 && path.getLast? = some 92 then path.length - 1 else path.length

structure Dummys where
  truePathLen : Nat
  subkeys : List Subkey

def dummySubkey (name : List WChar) : Subkey :=
  { name := name, lastWriteTime := 0, titleOrClass := false }

/-- A round for a pattern.  Behind the terminator of the pattern there is no backslash. -/
def dummyRound (path : List WChar) (s : Dummys) (pat : List WChar) : Dummys :=
  let patstr := cut pat
  if sameNoCase env.towlower (path.take s.truePathLen) (patstr.take s.truePathLen) &&
      patstr.getD s.truePathLen 0 = 92 then
    let name := component (patstr.drop (s.truePathLen + 1))
    let fakePath := cut ((path ++ [0]).take s.truePathLen ++ 92 :: name)
    { truePathLen := s.truePathLen + 1
      subkeys := if keyExists fakePath then
          insertUnique (fun s => fold env s.name) (dummySubkey name) s.subkeys
        else s.subkeys }
  else s

/-- `Key_MergeCacheDummys`, where `keyExists` tells whether `SbieApi_OpenKey` opens a path. -/
def mergeCacheDummys (merge : Merge) (truePath : List WChar) (lists : List (List (List WChar))) :
    Merge :=
  let path := cut truePath
  let s := lists.foldl (fun s list => list.foldl (dummyRound env keyExists path) s)
    ⟨truePathLen path, merge.subkeys⟩
  { merge with subkeys := s.subkeys }

def continuation (path pat : List WChar) : Option (List WChar) :=
  let patstr := cut pat
  if sameNoCase env.towlower path (patstr.take path.length) && patstr.getD path.length 0 = 92 then
    some (component (patstr.drop (path.length + 1)))
  else none

def basePath (truePath : List WChar) : List WChar :=
  (cut truePath).take (truePathLen (cut truePath))

/-- A pattern continues the path with the name, and there is such a key. -/
def ShouldList (truePath : List WChar) (lists : List (List (List WChar))) (name : List WChar) :
    Prop :=
  ∃ list ∈ lists, ∃ pat ∈ list, continuation env (basePath truePath) pat = some name ∧
    keyExists (basePath truePath ++ 92 :: name) = true

/-- The list is sorted, has no name twice, and has exactly the names that it should. -/
structure Complete (truePath : List WChar) (lists : List (List (List WChar)))
    (subkeys : List Subkey) : Prop where
  sorted : subkeys.Pairwise fun a b => fold env a.name < fold env b.name
  sound : ∀ s ∈ subkeys, ∃ name, ShouldList env keyExists truePath lists name ∧
    fold env name = fold env s.name
  complete : ∀ name, ShouldList env keyExists truePath lists name →
    ∃ s ∈ subkeys, fold env s.name = fold env name

/-- The name of the first pattern that continues a path, if there is such a key. -/
def firstName (path : List WChar) (pats : List (List WChar)) : Option (List WChar) :=
  (pats.findSome? (continuation env path)).filter fun name => keyExists (path ++ 92 :: name)

def behindFirst (path : List WChar) (pats : List (List WChar)) : List (List WChar) :=
  (pats.dropWhile fun pat => continuation env path pat = none).tail

/-- The name that a path with a last backslash gets besides: of a later pattern that has another
backslash behind it. -/
def secondName (truePath : List WChar) (pats : List (List WChar)) : Option (List WChar) :=
  if (basePath truePath).length < (cut truePath).length then
    firstName env keyExists (cut truePath) (behindFirst env (basePath truePath) pats)
  else none

end Dummys

variable {env : Env} {keyExists : List WChar → Bool}

/-! ### A round -/

theorem zero_notMem_cut (s : List WChar) : 0 ∉ cut s := by
  intro h
  have hne := mem_takeWhile_imp h
  exact absurd rfl (of_decide_eq_true hne)

theorem zero_notMem_component {ptr : List WChar} (h : 0 ∉ ptr) : 0 ∉ component ptr := by
  unfold component
  split
  · exact fun hmem => h ((takeWhile_sublist _).subset hmem)
  · exact fun hmem => h ((takeWhile_sublist _).subset hmem)

variable {path name : List WChar}

theorem zero_notMem_continuation {pat : List WChar}
    (h : continuation env path pat = some name) : 0 ∉ name := by
  unfold continuation at h
  simp only at h
  split at h
  · rw [← Option.some.inj h]
    exact zero_notMem_component fun hmem => zero_notMem_cut pat (mem_of_mem_drop hmem)
  · exact absurd h (fun h => nomatch h)

def addDummy (env : Env) (keyExists : List WChar → Bool) (path name : List WChar)
    (subkeys : List Subkey) : List Subkey :=
  if keyExists (path ++ 92 :: name) then
    insertUnique (fun s => fold env s.name) (dummySubkey name) subkeys
  else subkeys

variable {path : List WChar} {s : Dummys}

theorem dummyRound_eq (hpath : 0 ∉ path) (hlen : s.truePathLen ≤ path.length) (pat : List WChar) :
    dummyRound env keyExists path s pat =
      match continuation env (path.take s.truePathLen) pat with
      | some name => ⟨s.truePathLen + 1,
          addDummy env keyExists (path.take s.truePathLen) name s.subkeys⟩
      | none => s := by
  have htake : (path.take s.truePathLen).length = s.truePathLen := length_take_of_le hlen
  cases hcont : continuation env (path.take s.truePathLen) pat with
  | none =>
    unfold continuation at hcont
    simp only [htake] at hcont
    unfold dummyRound
    simp only
    split at hcont
    · exact absurd hcont (fun h => nomatch h)
    next hnot => rw [if_neg hnot]
  | some name =>
    have hname := zero_notMem_continuation hcont
    unfold continuation at hcont
    simp only [htake] at hcont
    unfold dummyRound
    simp only
    split at hcont
    next hmatch =>
      cases hcont
      have hfake : cut ((path ++ [0]).take s.truePathLen ++
          92 :: component ((cut pat).drop (s.truePathLen + 1))) =
          path.take s.truePathLen ++ 92 :: component ((cut pat).drop (s.truePathLen + 1)) := by
        rw [take_append_of_le_length hlen]
        refine cut_eq_self fun hmem => ?_
        rcases mem_append.mp hmem with hmem | hmem
        · exact hpath (mem_of_mem_take hmem)
        · rcases mem_cons.mp hmem with h0 | hmem
          · exact absurd h0 (by decide)
          · exact hname hmem
      rw [if_pos hmatch, hfake]
      rfl
    next => exact absurd hcont (fun h => nomatch h)

theorem dummyRound_beyond (hlen : path.length < s.truePathLen)
    (pat : List WChar) : dummyRound env keyExists path s pat = s := by
  unfold dummyRound
  simp only
  rw [if_neg]
  intro hboth
  obtain ⟨hsame, hslash⟩ := Bool.and_eq_true_iff.mp hboth
  have hlength := congrArg List.length (eq_of_beq hsame)
  rw [length_map, length_map, length_take, length_take] at hlength
  have hshort : (cut pat).length ≤ s.truePathLen := by omega
  have hslash : (cut pat).getD s.truePathLen 0 = 92 := of_decide_eq_true hslash
  rw [getD_eq_getElem?_getD, getElem?_eq_none hshort] at hslash
  exact absurd hslash (by decide)

theorem foldl_dummyRound_beyond (hlen : path.length < s.truePathLen) (pats : List (List WChar)) :
    pats.foldl (dummyRound env keyExists path) s = s := by
  induction pats with
  | nil => rfl
  | cons pat pats ih =>
    rw [foldl_cons, dummyRound_beyond hlen]
    exact ih

theorem foldl_dummyRound (hpath : 0 ∉ path)
    (hlen : s.truePathLen ≤ path.length) (pats : List (List WChar)) :
    pats.foldl (dummyRound env keyExists path) s =
      match pats.findSome? (continuation env (path.take s.truePathLen)) with
      | some name => (behindFirst env (path.take s.truePathLen) pats).foldl
          (dummyRound env keyExists path) ⟨s.truePathLen + 1,
            addDummy env keyExists (path.take s.truePathLen) name s.subkeys⟩
      | none => s := by
  induction pats with
  | nil => rfl
  | cons pat pats ih =>
    rw [foldl_cons, dummyRound_eq hpath hlen, behindFirst]
    cases hcont : continuation env (path.take s.truePathLen) pat with
    | none =>
      rw [findSome?_cons_of_isNone (by rw [hcont]; rfl),
        dropWhile_cons_of_pos (by rw [hcont]; rfl)]
      exact ih
    | some name =>
      rw [findSome?_cons_of_isSome (by rw [hcont]; rfl), hcont,
        dropWhile_cons_of_neg (by
          rw [hcont, decide_eq_true_eq]
          exact Option.some_ne_none name), tail_cons]

/-! ### The list -/

theorem addDummy_keys {subkeys : List Subkey}
    (h : Ascending (fun s : Subkey => fold env s.name) subkeys) :
    Ascending (fun s : Subkey => fold env s.name) (addDummy env keyExists path name subkeys) ∧
      ∀ k, (∃ s ∈ addDummy env keyExists path name subkeys, fold env s.name = k) ↔
        (keyExists (path ++ 92 :: name) = true ∧ fold env name = k) ∨
          ∃ s ∈ subkeys, fold env s.name = k := by
  unfold addDummy
  split
  next hkey =>
    refine ⟨ascending_insertUnique h, fun k => (exists_key_insertUnique h k).trans ?_⟩
    exact or_congr_left ⟨fun hk => ⟨hkey, hk⟩, And.right⟩
  next hkey => exact ⟨h, fun k => (or_iff_right fun hk => hkey hk.1).symm⟩

theorem firstName_eq_some {pats : List (List WChar)} :
    firstName env keyExists path pats = some name ↔
      pats.findSome? (continuation env path) = some name ∧
        keyExists (path ++ 92 :: name) = true := Option.filter_eq_some_iff

/-- The list with the name of the first pattern that continues the path. -/
def addFirst (env : Env) (keyExists : List WChar → Bool) (path : List WChar)
    (pats : List (List WChar)) (subkeys : List Subkey) : List Subkey :=
  match pats.findSome? (continuation env path) with
  | some name => addDummy env keyExists path name subkeys
  | none => subkeys

theorem addFirst_keys (keyExists : List WChar → Bool) (path : List WChar)
    (pats : List (List WChar)) {subkeys : List Subkey}
    (h : Ascending (fun s : Subkey => fold env s.name) subkeys) :
    Ascending (fun s : Subkey => fold env s.name) (addFirst env keyExists path pats subkeys) ∧
      ∀ k, (∃ s ∈ addFirst env keyExists path pats subkeys, fold env s.name = k) ↔
        (∃ name, firstName env keyExists path pats = some name ∧ fold env name = k) ∨
          ∃ s ∈ subkeys, fold env s.name = k := by
  unfold addFirst
  simp only [firstName_eq_some]
  cases hfirst : pats.findSome? (continuation env path) with
  | none =>
    refine ⟨h, fun k => (or_iff_right ?_).symm⟩
    rintro ⟨name, ⟨hname, -⟩, -⟩
    exact absurd hname (fun h => nomatch h)
  | some name =>
    refine ⟨(addDummy_keys h).1, fun k => ((addDummy_keys h).2 k).trans (or_congr_left ?_)⟩
    constructor
    · rintro ⟨hkey, hk⟩
      exact ⟨name, ⟨rfl, hkey⟩, hk⟩
    · rintro ⟨name', ⟨hname, hkey⟩, hk⟩
      cases hname
      exact ⟨hkey, hk⟩

theorem subkeys_foldl_dummyRound (hpath : 0 ∉ path) {len : Nat}
    (hlen : len ≤ path.length) (subkeys : List Subkey) (pats : List (List WChar)) :
    (pats.foldl (dummyRound env keyExists path) ⟨len, subkeys⟩).subkeys =
      ((behindFirst env (path.take len) pats).foldl (dummyRound env keyExists path)
        ⟨len + 1, addFirst env keyExists (path.take len) pats subkeys⟩).subkeys := by
  rw [foldl_dummyRound hpath hlen, addFirst]
  cases hfirst : pats.findSome? (continuation env (path.take len)) with
  | some name => rfl
  | none =>
    have hall : pats.dropWhile (fun pat => continuation env (path.take len) pat = none) = [] := by
      refine dropWhile_eq_nil_iff.mpr fun pat hpat => decide_eq_true ?_
      exact findSome?_eq_none_iff.mp hfirst pat hpat
    rw [behindFirst, hall]
    rfl

theorem mergeCacheDummys_names (env : Env) (keyExists : List WChar → Bool)
    (truePath : List WChar) (lists : List (List (List WChar))) :
    Ascending (fun s : Subkey => fold env s.name)
      (mergeCacheDummys env keyExists ⟨truePath, 0, [], []⟩ truePath lists).subkeys ∧
    ∀ k, (∃ s ∈ (mergeCacheDummys env keyExists ⟨truePath, 0, [], []⟩ truePath lists).subkeys,
        fold env s.name = k) ↔
      (∃ name, secondName env keyExists truePath lists.flatten = some name ∧ fold env name = k) ∨
      ∃ name, firstName env keyExists (basePath truePath) lists.flatten = some name ∧
        fold env name = k := by
  have hpath : 0 ∉ cut truePath := zero_notMem_cut truePath
  have hlen : truePathLen (cut truePath) ≤ (cut truePath).length ∧
      (cut truePath).length ≤ truePathLen (cut truePath) + 1 := by
    unfold truePathLen
    split <;> omega
  have hbase : (basePath truePath).length = truePathLen (cut truePath) :=
    length_take_of_le hlen.1
  have hsubkeys : (mergeCacheDummys env keyExists ⟨truePath, 0, [], []⟩ truePath lists).subkeys =
      (lists.flatten.foldl (dummyRound env keyExists (cut truePath))
        ⟨truePathLen (cut truePath), []⟩).subkeys := by
    rw [foldl_flatten]
    rfl
  have htake : (cut truePath).take (truePathLen (cut truePath)) = basePath truePath := rfl
  rw [hsubkeys, subkeys_foldl_dummyRound hpath hlen.1, htake]
  have hnil : Ascending (fun s : Subkey => fold env s.name) ([] : List Subkey) := List.Pairwise.nil
  obtain ⟨hsorted, hkeys⟩ := addFirst_keys keyExists (basePath truePath) lists.flatten hnil
  have hfirst : ∀ k, (∃ s ∈ addFirst env keyExists (basePath truePath) lists.flatten [],
      fold env s.name = k) ↔ ∃ name, firstName env keyExists (basePath truePath) lists.flatten =
        some name ∧ fold env name = k := by
    intro k
    rw [hkeys]
    refine or_iff_left ?_
    rintro ⟨s, hs, -⟩
    exact absurd hs not_mem_nil
  generalize addFirst env keyExists (basePath truePath) lists.flatten [] = listed at hsorted hfirst
  unfold secondName
  by_cases hslash : (basePath truePath).length < (cut truePath).length
  · -- The path has a last backslash, and the length has reached its end.
    have hend : truePathLen (cut truePath) + 1 = (cut truePath).length := by omega
    rw [if_pos hslash, hend, subkeys_foldl_dummyRound hpath le_rfl, take_length,
      foldl_dummyRound_beyond (Nat.lt_succ_self _)]
    obtain ⟨hsorted', hkeys'⟩ := addFirst_keys keyExists (cut truePath)
      (behindFirst env (basePath truePath) lists.flatten) hsorted
    exact ⟨hsorted', fun k => (hkeys' k).trans (or_congr_right (hfirst k))⟩
  · rw [if_neg hslash, foldl_dummyRound_beyond (by show _ < _ + 1; omega)]
    refine ⟨hsorted, fun k => (hfirst k).trans (or_iff_right ?_).symm⟩
    rintro ⟨name, hname, -⟩
    exact absurd hname (fun h => nomatch h)

theorem shouldList_firstName {truePath : List WChar} {lists : List (List (List WChar))}
    (h : firstName env keyExists (basePath truePath) lists.flatten = some name) :
    ShouldList env keyExists truePath lists name := by
  obtain ⟨hfirst, hkey⟩ := firstName_eq_some.mp h
  obtain ⟨pat, hpat, hcont⟩ := exists_of_findSome?_eq_some hfirst
  obtain ⟨list, hlist, hpat⟩ := mem_flatten.mp hpat
  exact ⟨list, hlist, pat, hpat, hcont, hkey⟩

/-- The list is what it should be exactly if all that should be in it are one name, of the first
pattern that continues the path, or the one that a path with a last backslash gets besides; and
that one should be in it, too. -/
theorem mergeCacheDummys_iff (env : Env) (keyExists : List WChar → Bool) (truePath : List WChar)
    (lists : List (List (List WChar))) :
    Complete env keyExists truePath lists
      (mergeCacheDummys env keyExists ⟨truePath, 0, [], []⟩ truePath lists).subkeys ↔
    (∀ name, ShouldList env keyExists truePath lists name → ∃ name',
      (secondName env keyExists truePath lists.flatten = some name' ∨
        firstName env keyExists (basePath truePath) lists.flatten = some name') ∧
      fold env name' = fold env name) ∧
    ∀ name', secondName env keyExists truePath lists.flatten = some name' →
      ∃ name, ShouldList env keyExists truePath lists name ∧ fold env name = fold env name' := by
  obtain ⟨hsorted, hnames⟩ := mergeCacheDummys_names env keyExists truePath lists
  constructor
  · intro h
    refine ⟨fun name hname => ?_, fun name' hname' => ?_⟩
    · rcases (hnames _).mp (h.complete name hname) with ⟨name', hname', hsame⟩ |
        ⟨name', hname', hsame⟩
      · exact ⟨name', Or.inl hname', hsame⟩
      · exact ⟨name', Or.inr hname', hsame⟩
    · obtain ⟨s, hs, hsame⟩ := (hnames (fold env name')).mpr (Or.inl ⟨name', hname', rfl⟩)
      obtain ⟨name, hname, hsame'⟩ := h.sound s hs
      exact ⟨name, hname, hsame'.trans hsame⟩
  · rintro ⟨hcomplete, hsound⟩
    refine ⟨hsorted, fun s hs => ?_, fun name hname => (hnames _).mpr ?_⟩
    · rcases (hnames _).mp ⟨s, hs, rfl⟩ with ⟨name', hname', hsame⟩ | ⟨name', hname', hsame⟩
      · obtain ⟨name, hname, hsame'⟩ := hsound name' hname'
        exact ⟨name, hname, hsame'.trans hsame⟩
      · exact ⟨name', shouldList_firstName hname', hsame⟩
    · obtain ⟨name', hor, hsame⟩ := hcomplete name hname
      exact hor.imp (fun h => ⟨name', h, hsame⟩) fun h => ⟨name', h, hsame⟩

/-- Two patterns `K\a` and `K\b` continue the path `K`, and there are both keys. -/
theorem mergeCacheDummys_two : ¬ Complete plainEnv (fun _ => true) [0x4B]
    [[[0x4B, 92, 0x61], [0x4B, 92, 0x62]]]
    (mergeCacheDummys plainEnv (fun _ => true) ⟨[0x4B], 0, [], []⟩ [0x4B]
      [[[0x4B, 92, 0x61], [0x4B, 92, 0x62]]]).subkeys := by
  intro h
  have hshould : ShouldList plainEnv (fun _ => true) [0x4B]
      [[[0x4B, 92, 0x61], [0x4B, 92, 0x62]]] [0x62] :=
    ⟨_, mem_singleton_self _, [0x4B, 92, 0x62], by decide, by decide, rfl⟩
  obtain ⟨s, hs, hsame⟩ := h.complete _ hshould
  have hlisted : (mergeCacheDummys plainEnv (fun _ => true) ⟨[0x4B], 0, [], []⟩ [0x4B]
      [[[0x4B, 92, 0x61], [0x4B, 92, 0x62]]]).subkeys = [dummySubkey [0x61]] := by decide
  rw [hlisted, mem_singleton] at hs
  rw [hs] at hsame
  exact absurd hsame (by decide)

end Sandboxie.KeyMerge
