import Sandboxie.Dll.FileLinks
import Sandboxie.Lib.Cells

/-!
# Rewriting the path behind a link

`File_FixPermLinksForTempLink` of `core/dll/file_link.c`, as `File_AddTempLink` calls it: the
permanent links at the start of a path are replaced in the memory that has the path.

The path comes from a query for the name of a file, into memory of a fixed size, or from a
translation, which allocates what it needs; a copy path is replaced by its true path, in a copy of
that.  The size that is handed over is that of the first in each case.
-/

namespace Sandboxie.FileLinks

open Text List

/-- `PATH_BUF_LEN`, in bytes. -/
def PATH_BUF_LEN : Nat := 1024

/-! ### In memory -/

/-- What the rewriting leaves: the memory, the length of the path in it, and the number of the
rewrites. -/
structure Rewritten where
  block : List WChar
  len : Nat
  retries : Nat

/-- The start of a path is replaced in memory; nothing where that leaves the memory. -/
def replaceStart (block : List WChar) (nameLen : Nat) (link : Link) : Option (List WChar) :=
  let moved :=
    if link.src.len ≠ link.dst.len then
      Cells.store block link.dst.len ((block.drop link.src.len).take (nameLen - link.src.len + 1))
    else some block
  moved.bind fun block => Cells.store block 0 link.dst.chars

/-- `File_FixPermLinksForTempLink`, with the rewrites that are left.  After each of them the links
are looked through from the first one on. -/
def fixPermLinksForTempLink (towlower : WChar → WChar) (links : List Link) (maxLen : Nat) :
    Nat → List WChar → Nat → Option Rewritten
  | 0, block, nameLen => some ⟨block, nameLen, 0⟩
  | left + 1, block, nameLen =>
    match nextPermLink towlower links block nameLen maxLen with
    | none => some ⟨block, nameLen, 0⟩
    | some link =>
      (replaceStart block nameLen link).bind fun block =>
        (fixPermLinksForTempLink towlower links maxLen left block
          (nameLen - link.src.len + link.dst.len)).map fun r => { r with retries := r.retries + 1 }

/-! ### Of strings -/

def Name.rewrite (name : Name) (link : Link) : Name where
  chars := link.dst.chars ++ name.chars.drop link.src.len
  zero_notMem h := by
    rcases List.mem_append.mp h with h | h
    · exact link.dst.zero_notMem h
    · exact name.zero_notMem (List.mem_of_mem_drop h)

/-- The first link that leads to the path, unless the path gets too long by it. -/
def firstLink (towlower : WChar → WChar) (links : List Link) (maxLen : Nat) (name : Name) :
    Option Link :=
  links.find? fun link => !link.isWow64 && decide (Leads towlower link.src name) &&
    decide ((name.rewrite link).len ≤ maxLen)

/-- The paths that a path is rewritten to, one after the other. -/
def rewrites (towlower : WChar → WChar) (links : List Link) (maxLen : Nat) :
    Nat → Name → List Name
  | 0, _ => []
  | left + 1, name =>
    match firstLink towlower links maxLen name with
    | none => []
    | some link =>
      name.rewrite link :: rewrites towlower links maxLen left (name.rewrite link)

variable {towlower : WChar → WChar} {links : List Link} {maxLen : Nat}

theorem length_rewrites : ∀ (left : Nat) (name : Name),
    (rewrites towlower links maxLen left name).length ≤ left := by
  intro left
  induction left with
  | zero => exact fun _ => Nat.le_refl _
  | succ left ih =>
    intro name
    rw [rewrites]
    cases firstLink towlower links maxLen name with
    | none => exact Nat.zero_le _
    | some link =>
      rw [length_cons]
      exact Nat.succ_le_succ (ih _)

theorem len_rewrites : ∀ (left : Nat) (name : Name),
    ∀ name' ∈ rewrites towlower links maxLen left name, name'.len ≤ maxLen := by
  intro left
  induction left with
  | zero => exact fun _ _ h => nomatch h
  | succ left ih =>
    intro name name' h
    rw [rewrites] at h
    cases hfirst : firstLink towlower links maxLen name with
    | none =>
      rw [hfirst] at h
      cases h
    | some link =>
      rw [hfirst] at h
      rcases mem_cons.mp h with rfl | h
      · have htest := find?_some hfirst
        exact of_decide_eq_true (Bool.and_eq_true_iff.mp htest).2
      · exact ih _ _ h

theorem Leads.len_le {entry path : Name} (h : Leads towlower entry path) :
    entry.len ≤ path.len := by
  obtain ⟨front, rest, hpath, hsame, -⟩ := h
  have hlen := length_of_sameNoCase hsame
  unfold Name.len
  rw [hpath, length_append]
  omega

theorem len_rewrite (name : Name) (link : Link) :
    (name.rewrite link).len = link.dst.len + (name.len - link.src.len) := by
  show (link.dst.chars ++ name.chars.drop link.src.len).length = _
  rw [length_append, length_drop]
  rfl

/-! ### The one in the other -/

def Holds (block : List WChar) (name : Name) : Prop :=
  ∃ behind, block = name.chars ++ 0 :: behind

theorem Holds.len_lt {block : List WChar} {name : Name} (h : Holds block name) :
    name.len < block.length := by
  obtain ⟨behind, rfl⟩ := h
  rw [length_append, length_cons]
  exact Nat.lt_add_of_pos_right (Nat.succ_pos _)

theorem Holds.testEntry_eq {block : List WChar} {name : Name} (h : Holds block name)
    (entry : Name) : testEntry towlower block name.len entry.chars =
      decide (Leads towlower entry name) := by
  rw [← FileLinks.testEntry_eq]
  obtain ⟨behind, rfl⟩ := h
  unfold testEntry
  by_cases hlen : entry.chars.length ≤ name.chars.length
  · have hchar : charAt (name.chars ++ 0 :: behind) entry.chars.length =
        charAt name.chars entry.chars.length := by
      unfold charAt
      rw [getD_eq_getElem?_getD, getD_eq_getElem?_getD]
      rcases Nat.lt_or_eq_of_le hlen with hlt | heq
      · rw [getElem?_append_left hlt]
      · rw [heq, getElem?_append_right (Nat.le_refl _), Nat.sub_self,
          getElem?_eq_none (Nat.le_refl _)]
        rfl
    rw [hchar, take_append_of_le_length hlen]
  · have hlong : ¬ name.len ≥ entry.chars.length := hlen
    rw [decide_eq_false hlong, Bool.false_and, Bool.false_and, Bool.false_and, Bool.false_and]

theorem Holds.nextPermLink_eq {block : List WChar} {name : Name} (h : Holds block name) :
    nextPermLink towlower links block name.len maxLen = firstLink towlower links maxLen name := by
  unfold nextPermLink firstLink
  congr 1
  funext link
  rw [h.testEntry_eq]
  by_cases hleads : Leads towlower link.src name
  · have hle := hleads.len_le
    rw [len_rewrite, show link.dst.len + name.len - link.src.len =
      link.dst.len + (name.len - link.src.len) by omega]
  · rw [decide_eq_false hleads, Bool.and_false, Bool.false_and, Bool.false_and]

theorem Holds.moved {block : List WChar} {name : Name} (h : Holds block name) {n : Nat}
    (hn : n ≤ name.len) : (block.drop n).take (name.len - n + 1) = name.chars.drop n ++ [0] := by
  obtain ⟨behind, rfl⟩ := h
  have hlen : (name.chars.drop n).length = name.len - n := length_drop ..
  rw [drop_append_of_le_length hn, ← hlen, take_length_add_append, take_succ_cons,
    take_zero]

/-- **Replacing the start** of a path stays in the memory when the path does afterwards. -/
theorem replaceStart_spec {block : List WChar} {name : Name} (h : Holds block name) {link : Link}
    (hle : link.src.len ≤ name.len) :
    if (name.rewrite link).len < block.length then
      ∃ block', replaceStart block name.len link = some block' ∧
        block'.length = block.length ∧ Holds block' (name.rewrite link)
    else replaceStart block name.len link = none := by
  have hlen := len_rewrite name link
  have hlt := h.len_lt
  unfold replaceStart
  by_cases hsame : link.src.len = link.dst.len
  · -- nothing is moved
    rw [if_neg (not_not_intro hsame), Option.bind_some, if_pos (by omega)]
    have hfit : 0 + link.dst.chars.length ≤ block.length := by
      show 0 + link.dst.len ≤ _
      omega
    refine ⟨_, Cells.store_eq hfit, Cells.length_splice hfit, ?_⟩
    obtain ⟨behind, rfl⟩ := h
    refine ⟨behind, ?_⟩
    have hdrop : (name.chars ++ 0 :: behind).drop (0 + link.dst.chars.length) =
        name.chars.drop link.src.len ++ 0 :: behind := by
      rw [Nat.zero_add, show link.dst.chars.length = link.src.len from hsame.symm,
        drop_append_of_le_length hle]
    unfold Cells.splice
    rw [hdrop, take_zero, nil_append, ← append_assoc]
    rfl
  · rw [if_pos hsame, h.moved hle]
    have hmoved : (name.chars.drop link.src.len ++ [0]).length = name.len - link.src.len + 1 := by
      rw [length_append, length_drop]
      rfl
    by_cases hroom : (name.rewrite link).len < block.length
    · rw [if_pos hroom]
      have hfit : link.dst.len + (name.chars.drop link.src.len ++ [0]).length ≤ block.length := by
        rw [hmoved]
        omega
      have hlen' := Cells.length_splice hfit
      have hfit' : 0 + link.dst.chars.length ≤
          (Cells.splice block link.dst.len (name.chars.drop link.src.len ++ [0])).length := by
        show 0 + link.dst.len ≤ _
        omega
      rw [Cells.store_eq hfit, Option.bind_some]
      refine ⟨_, Cells.store_eq hfit', (Cells.length_splice hfit').trans hlen',
        block.drop (link.dst.len + (name.chars.drop link.src.len ++ [0]).length), ?_⟩
      have htake : (block.take link.dst.len).length = link.dst.len := by
        rw [length_take]
        omega
      have hdrop : (Cells.splice block link.dst.len (name.chars.drop link.src.len ++ [0])).drop
          (0 + link.dst.chars.length) = name.chars.drop link.src.len ++ 0 ::
            block.drop (link.dst.len + (name.chars.drop link.src.len ++ [0]).length) := by
        unfold Cells.splice
        rw [Nat.zero_add, append_assoc, show link.dst.chars.length = link.dst.len from rfl,
          drop_append_of_le_length (Nat.le_of_eq htake.symm),
          drop_of_length_le (Nat.le_of_eq htake), nil_append, append_assoc]
        rfl
      rw [Cells.splice, hdrop, take_zero, nil_append, ← append_assoc]
      rfl
    · rw [if_neg hroom, Cells.store_none (by rw [hmoved]; omega)]
      rfl

theorem fixPermLinks_spec : ∀ (left : Nat) {block : List WChar} {name : Name}, Holds block name →
    if ∀ name' ∈ rewrites towlower links maxLen left name, name'.len < block.length then
      ∃ block', fixPermLinksForTempLink towlower links maxLen left block name.len =
        some ⟨block', ((rewrites towlower links maxLen left name).getLastD name).len,
          (rewrites towlower links maxLen left name).length⟩ ∧
        Holds block' ((rewrites towlower links maxLen left name).getLastD name)
    else fixPermLinksForTempLink towlower links maxLen left block name.len = none := by
  intro left
  induction left with
  | zero =>
    intro block name h
    rw [if_pos nofun]
    exact ⟨block, rfl, h⟩
  | succ left ih =>
    intro block name h
    rw [fixPermLinksForTempLink, h.nextPermLink_eq, rewrites]
    cases hfirst : firstLink towlower links maxLen name with
    | none =>
      rw [if_pos nofun]
      exact ⟨block, rfl, h⟩
    | some link =>
      have htest := find?_some hfirst
      have hleads : Leads towlower link.src name :=
        of_decide_eq_true (Bool.and_eq_true_iff.mp (Bool.and_eq_true_iff.mp htest).1).2
      have hreplace := replaceStart_spec h hleads.len_le
      have hlen : name.len - link.src.len + link.dst.len = (name.rewrite link).len := by
        rw [len_rewrite, Nat.add_comm]
      dsimp only
      by_cases hroom : (name.rewrite link).len < block.length
      · rw [if_pos hroom] at hreplace
        obtain ⟨block', hblock', hlen', hholds⟩ := hreplace
        have hmore := ih hholds
        rw [hblock', Option.bind_some, hlen]
        have hall : (∀ name' ∈ name.rewrite link ::
              rewrites towlower links maxLen left (name.rewrite link),
            name'.len < block.length) ↔
            ∀ name' ∈ rewrites towlower links maxLen left (name.rewrite link),
              name'.len < block'.length := by
          rw [forall_mem_cons, and_iff_right hroom, hlen']
        by_cases hmem : ∀ name' ∈ rewrites towlower links maxLen left (name.rewrite link),
            name'.len < block'.length
        · rw [if_pos hmem] at hmore
          obtain ⟨block'', hfix, hholds'⟩ := hmore
          rw [if_pos (hall.mpr hmem), hfix, getLastD_cons]
          exact ⟨block'', rfl, hholds'⟩
        · rw [if_neg hmem] at hmore
          rw [if_neg fun h' => hmem (hall.mp h'), hmore]
          rfl
      · rw [if_neg hroom] at hreplace
        rw [hreplace, if_neg fun h' => hroom (h' _ (mem_cons_self ..))]
        rfl

/-! ### The path of a new link -/

def squeeze : List WChar → List WChar
  | a :: b :: rest =>
    if a = backslash ∧ b = backslash then squeeze (b :: rest) else a :: squeeze (b :: rest)
  | s => s

theorem mem_of_mem_squeeze {c : WChar} : ∀ {s : List WChar}, c ∈ squeeze s → c ∈ s := by
  intro s
  induction s with
  | nil => exact id
  | cons a s ih =>
    cases s with
    | nil => exact id
    | cons b rest =>
      intro h
      rw [squeeze] at h
      split at h
      · exact mem_cons_of_mem _ (ih h)
      · rcases mem_cons.mp h with rfl | h
        · exact mem_cons_self ..
        · exact mem_cons_of_mem _ (ih h)

/-- How `File_AddTempLink` comes to the path. -/
inductive Route
  /-- `File_GetFileName`, which writes 1020 bytes at most, with the terminator -/
  | fileName (name : Name) (short : name.len + 1 ≤ 510)
  /-- `File_TranslateTempLinks_2` -/
  | translated (name : Name)

/-- A path that was resolved; a copy path also has its true path. -/
structure Resolved where
  route : Route
  truePath : Option Name

def Resolved.name (r : Resolved) : Name :=
  match r.truePath with
  | some name => name
  | none =>
    match r.route with
    | .fileName name _ => name
    | .translated name => name

def Resolved.size (r : Resolved) : Nat :=
  match r.truePath with
  | some name => name.len + 1
  | none =>
    match r.route with
    | .fileName _ _ => PATH_BUF_LEN / 2
    | .translated name => name.len + 1

def Resolved.squeezed (r : Resolved) : Name :=
  ⟨squeeze r.name.chars, fun h => r.name.zero_notMem (mem_of_mem_squeeze h)⟩

/-- The memory when the links are to be replaced: the path is there, and something is behind
it. -/
structure Prepared extends Resolved where
  behind : List WChar
  length_behind : toResolved.squeezed.len + 1 + behind.length = toResolved.size

def Prepared.block (p : Prepared) : List WChar := p.squeezed.chars ++ 0 :: p.behind

theorem Prepared.holds (p : Prepared) : Holds p.block p.squeezed := ⟨p.behind, rfl⟩

theorem Prepared.length_block (p : Prepared) : p.block.length = p.size := by
  have hlen := p.length_behind
  unfold Prepared.block
  rw [length_append, length_cons]
  unfold Name.len at hlen
  omega

/-- The number of characters that `File_AddTempLink` says there is room for. -/
def maxNameLen : Nat := (PATH_BUF_LEN - 4) / 2

/-- The rewriting that `File_AddTempLink` has done. -/
def fixPrepared (towlower : WChar → WChar) (links : List Link) (p : Prepared) : Option Rewritten :=
  fixPermLinksForTempLink towlower links maxNameLen 16 p.block p.squeezed.len

/-- The rewriting stays in the memory, and ends after sixteen rewrites at most. -/
def StaysInside (towlower : WChar → WChar) (links : List Link) (p : Prepared) : Prop :=
  ∃ r, fixPrepared towlower links p = some r ∧ r.retries ≤ 16

/-- The memory of the query is used, without the true path. -/
def Queried (r : Resolved) : Prop := r.truePath = none ∧
  ∃ name short, r.route = .fileName name short

theorem size_of_queried {r : Resolved} (h : Queried r) : r.size = 512 := by
  obtain ⟨htrue, name, short, hroute⟩ := h
  unfold Resolved.size
  rw [htrue, hroute]
  rfl

theorem size_of_not_queried {r : Resolved} (h : ¬ Queried r) : r.size = r.name.len + 1 := by
  unfold Resolved.size Resolved.name
  cases htrue : r.truePath with
  | some name => rfl
  | none =>
    cases hroute : r.route with
    | fileName name short => exact absurd ⟨htrue, name, short, hroute⟩ h
    | translated name => rfl

/-- **When the rewriting stays in the memory**: when the path is in the memory of the query, or
none of the paths that it is rewritten to is longer than the one that was resolved. -/
theorem staysInside_iff (towlower : WChar → WChar) (links : List Link) (p : Prepared) :
    StaysInside towlower links p ↔ Queried p.toResolved ∨
      ∀ name ∈ rewrites towlower links maxNameLen 16 p.squeezed, name.len ≤ p.name.len := by
  have hspec := @fixPermLinks_spec towlower links maxNameLen 16 _ _ p.holds
  have hroom : StaysInside towlower links p ↔
      ∀ name ∈ rewrites towlower links maxNameLen 16 p.squeezed, name.len < p.size := by
    rw [p.length_block] at hspec
    unfold StaysInside fixPrepared
    split at hspec
    next h =>
      obtain ⟨block, hfix, -⟩ := hspec
      exact iff_of_true ⟨_, hfix, length_rewrites 16 p.squeezed⟩ h
    next h =>
      rw [hspec]
      exact iff_of_false (fun ⟨r, hr, _⟩ => nomatch hr) h
  rw [hroom]
  by_cases hqueried : Queried p.toResolved
  · refine iff_of_true (fun name h => ?_) (.inl hqueried)
    rw [size_of_queried hqueried]
    exact Nat.lt_of_le_of_lt (len_rewrites 16 p.squeezed name h) (by decide)
  · rw [size_of_not_queried hqueried, or_iff_right hqueried]
    exact forall₂_congr fun name _ => Nat.lt_succ_iff

/-! ### A true path that gets longer -/

def mounted : Link :=
  ⟨⟨wide "\\Device\\HarddiskVolume1\\m".toList, by decide⟩,
    ⟨wide "\\Device\\HarddiskVolumeShadowCopy12".toList, by decide⟩, false⟩

def folder : Prepared where
  route := .fileName mounted.src (by decide)
  truePath := some mounted.src
  behind := []
  length_behind := by decide

/-- There is no room for the other path. -/
theorem not_staysInside_folder : ¬ StaysInside asciiLower [mounted] folder := by
  rintro ⟨r, hr, -⟩
  have hnone : fixPrepared asciiLower [mounted] folder = none := by decide +kernel
  cases hr

end Sandboxie.FileLinks
