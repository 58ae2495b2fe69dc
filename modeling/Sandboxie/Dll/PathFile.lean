import Mathlib.Data.List.TakeWhile
import Mathlib.Data.Nat.Digits.Lemmas
import Sandboxie.Common.Ini
import Sandboxie.Dll.PathTree

/-!
# The file of deleted and relocated paths

`File_SavePathTree_internal` and `File_LoadPathTree_internal` of `file_del.c`: a line of the file
is a path, its flags and, where there is one, its relocation, with `|` between them.

A `TranslatePath` that is not there, and one that gives nothing, is `none`.  The buffer of
32768 characters in which a path is put together is not modelled.
-/

namespace Sandboxie.PathTree

open Text List

abbrev TranslatePath := List WChar → Option (List WChar)

def TranslatePath.use (translatePath : TranslatePath) (path : List WChar) : List WChar :=
  (translatePath path).getD path

/-! ### Numbers -/

def hexDigit (d : Nat) : WChar := if d < 10 then 48 + d else 87 + d

/-- `_ultow` with radix 16 -/
def ultow (value : BitVec 32) : List WChar :=
  if value = 0 then [48] else (Nat.digits 16 value.toNat).reverse.map hexDigit

def hexValue (c : WChar) : Option Nat :=
  if 48 ≤ c ∧ c ≤ 57 then some (c - 48)
  else if 97 ≤ c ∧ c ≤ 102 then some (c - 87)
  else if 65 ≤ c ∧ c ≤ 70 then some (c - 55)
  else none

def readDigits : List WChar → List Nat × List WChar
  | [] => ([], [])
  | c :: rest =>
    match hexValue c with
    | some d => (d :: (readDigits rest).1, (readDigits rest).2)
    | none => ([], c :: rest)

/-- White space of ASCII, which `wcstoul` skips. -/
def isSpace (c : WChar) : Bool := 9 ≤ c && c ≤ 13 || c = 32

/-- `wcstoul` with radix 16: the value, and `endptr`.  It stays at the largest value when the
number is too large. -/
def wcstoul (text : List WChar) : BitVec 32 × List WChar :=
  let rest := text.dropWhile isSpace
  let negative : Bool := rest.head? = some 45
  let rest := if rest.head? = some 45 ∨ rest.head? = some 43 then rest.tail else rest
  let rest := match rest with
    | 48 :: c :: d :: more =>
      if (c = 120 ∨ c = 88) ∧ (hexValue d).isSome then d :: more else 48 :: c :: d :: more
    | _ => rest
  match readDigits rest with
  | ([], _) => (0, text)
  | (ds, stop) =>
    let n := Nat.ofDigits 16 ds.reverse
    (if 2 ^ 32 ≤ n then BitVec.allOnes 32
      else if negative then -BitVec.ofNat 32 n else BitVec.ofNat 32 n, stop)

theorem hexValue_hexDigit {d : Nat} (h : d < 16) : hexValue (hexDigit d) = some d := by
  have hall : ∀ d < 16, hexValue (hexDigit d) = some d := by decide
  exact hall d h

theorem readDigits_append (ds : List Nat) (hds : ∀ d ∈ ds, d < 16) (rest : List WChar)
    (hrest : ∀ c ∈ rest.head?, hexValue c = none) :
    readDigits (ds.map hexDigit ++ rest) = (ds, rest) := by
  induction ds with
  | nil =>
    cases rest with
    | nil => rfl
    | cons c rest =>
      have hc := hrest c rfl
      simp [readDigits, hc]
  | cons d ds ih =>
    have hd := hexValue_hexDigit (hds d mem_cons_self)
    simp [readDigits, hd, ih fun d' hd' => hds d' (mem_cons_of_mem d hd')]

theorem ultow_digits (value : BitVec 32) (h : value ≠ 0) :
    ∃ d ds, ultow value = (d :: ds).map hexDigit ∧ (∀ e ∈ d :: ds, e < 16) ∧
      Nat.ofDigits 16 (d :: ds).reverse = value.toNat := by
  have hne : value.toNat ≠ 0 := fun h0 => h (BitVec.eq_of_toNat_eq h0)
  have hdigits : (Nat.digits 16 value.toNat).reverse ≠ [] := by
    simpa [Nat.digits_eq_nil_iff_eq_zero] using hne
  obtain ⟨d, ds, hds⟩ := exists_cons_of_ne_nil hdigits
  refine ⟨d, ds, ?_, ?_, ?_⟩
  · rw [ultow, if_neg h, hds]
  · intro e he
    rw [← hds, mem_reverse] at he
    exact Nat.digits_lt_base (by decide) he
  · rw [← hds, reverse_reverse, Nat.ofDigits_digits]

theorem wcstoul_hexDigit {d : Nat} {ds : List Nat} (hds : ∀ e ∈ d :: ds, e < 16)
    (rest : List WChar) (hrest : ∀ c ∈ rest.head?, hexValue c = none ∧ c ≠ 120 ∧ c ≠ 88)
    (hlt : Nat.ofDigits 16 (d :: ds).reverse < 2 ^ 32) :
    wcstoul ((d :: ds).map hexDigit ++ rest) =
      (BitVec.ofNat 32 (Nat.ofDigits 16 (d :: ds).reverse), rest) := by
  have hfirst : ∀ e < 16, isSpace (hexDigit e) = false ∧ hexDigit e ≠ 45 ∧ hexDigit e ≠ 43 ∧
      hexDigit e ≠ 120 ∧ hexDigit e ≠ 88 := by decide
  have hread := readDigits_append (d :: ds) hds rest fun c hc => (hrest c hc).1
  obtain ⟨hspace, hminus, hplus, -⟩ := hfirst d (hds d mem_cons_self)
  rw [map_cons, cons_append] at hread ⊢
  -- the second character is a digit or the first one behind the number
  have hsecond : ∀ c more, ds.map hexDigit ++ rest = c :: more → c ≠ 120 ∧ c ≠ 88 := by
    intro c more hc
    cases ds with
    | nil =>
      rw [map_nil, nil_append] at hc
      exact (hrest c (by rw [hc]; rfl)).2
    | cons e ds =>
      obtain ⟨rfl, -⟩ := List.cons.inj hc
      exact (hfirst e (hds e (by simp))).2.2.2
  have hplain : ∀ text : List WChar, text = hexDigit d :: (ds.map hexDigit ++ rest) →
      (match text with
        | 48 :: c :: e :: more =>
          if (c = 120 ∨ c = 88) ∧ (hexValue e).isSome then e :: more else 48 :: c :: e :: more
        | _ => text) = text := by
    intro text htext
    split
    · rename_i c e more
      obtain ⟨-, hc⟩ := List.cons.inj htext
      have hne := hsecond c (e :: more) hc.symm
      rw [if_neg (by simp [hne.1, hne.2])]
    · rfl
  unfold wcstoul
  simp only [dropWhile_cons, hspace, Bool.false_eq_true, if_false, head?_cons,
    Option.some.injEq, hminus, hplus, or_self, decide_false]
  rw [hplain _ rfl, hread]
  simp only [if_neg (Nat.not_le.mpr hlt)]

theorem wcstoul_ultow (value : BitVec 32) (rest : List WChar)
    (hrest : ∀ c ∈ rest.head?, hexValue c = none ∧ c ≠ 120 ∧ c ≠ 88) :
    wcstoul (ultow value ++ rest) = (value, rest) := by
  by_cases h : value = 0
  · subst h
    exact @wcstoul_hexDigit 0 [] (by simp) rest hrest (by simp)
  · obtain ⟨d, ds, htext, hds, hvalue⟩ := ultow_digits value h
    have hlt : Nat.ofDigits 16 (d :: ds).reverse < 2 ^ 32 := hvalue ▸ value.isLt
    rw [htext, wcstoul_hexDigit hds rest hrest hlt, hvalue, BitVec.ofNat_toNat,
      BitVec.setWidth_eq]

theorem mem_ultow {value : BitVec 32} {c : WChar} (h : c ∈ ultow value) :
    48 ≤ c ∧ c < 124 := by
  have hall : ∀ e < 16, 48 ≤ hexDigit e ∧ hexDigit e < 124 := by decide
  by_cases hzero : value = 0
  · subst hzero
    obtain rfl : c = 48 := by simpa [ultow] using h
    decide
  · obtain ⟨d, ds, htext, hds, -⟩ := ultow_digits value hzero
    rw [htext, mem_map] at h
    obtain ⟨e, he, rfl⟩ := h
    exact hall e (hds e he)

/-! ### Saving -/

/-- `File_AppendPathEntry_internal` -/
def appendPathEntry (translatePath : TranslatePath) (path : List WChar) (mark : Mark) :
    List WChar :=
  translatePath.use path ++ 124 :: ultow mark.flags ++
    (match mark.relocation with
      | some relocation => 124 :: translatePath.use relocation
      | none => []) ++ [13, 10]

/-- The flags of the parents that count for a node: its own relocation resets them, and those
for the nodes behind it too. -/
def inherited (setFlags : BitVec 32) (mark : Mark) : BitVec 32 :=
  if mark.relocated then 0 else setFlags

/-- A line is written for the node: it has flags that its parents do not have, or a
relocation. -/
def isWritten (setFlags : BitVec 32) (mark : Mark) : Bool :=
  mark.flags &&& ~~~setFlags ≠ 0 || mark.relocation ≠ none

/-- `File_SavePathNode_internal` -/
def savePathNode (translatePath : TranslatePath) :
    PathNodes → List WChar → BitVec 32 → List WChar
  | .nil, _, _ => []
  | .node name mark items next, path, setFlags =>
    let path' := path ++ 92 :: name
    let setFlags := inherited setFlags mark
    (if isWritten setFlags mark then appendPathEntry translatePath path' mark else []) ++
      savePathNode translatePath items path' (setFlags ||| mark.flags) ++
      savePathNode translatePath next path setFlags

/-- `File_SavePathTree_internal`: the text of the file. -/
def savePathTree (translatePath : TranslatePath) (root : PathNodes) : List WChar :=
  savePathNode translatePath root [] 0

/-! ### Loading -/

def stripCr (line : List WChar) : List WChar :=
  if line.getLast? = some 13 then line.dropLast else line

/-- The parts of a line; there are none when the flags are missing. -/
def readLine (line : List WChar) : Option (List WChar × Mark) :=
  let line := stripCr line
  if line.contains 124 then
    let parsed := wcstoul ((line.dropWhile (· ≠ 124)).tail)
    some (line.takeWhile (· ≠ 124),
      ⟨parsed.1, if parsed.2.head? = some 124 then some parsed.2.tail else none⟩)
  else none

theorem readLine_written {path relocation : List WChar} (flags : BitVec 32)
    (hpath : 124 ∉ path) :
    readLine (path ++ 124 :: ultow flags ++ [13]) = some (path, ⟨flags, none⟩) ∧
      readLine (path ++ 124 :: ultow flags ++ 124 :: relocation ++ [13]) =
        some (path, ⟨flags, some relocation⟩) := by
  have hstrip : ∀ line : List WChar, stripCr (line ++ [13]) = line := by
    intro line
    simp [stripCr]
  have hparts : ∀ rest : List WChar, (path ++ 124 :: rest).takeWhile (· ≠ 124) = path ∧
      (path ++ 124 :: rest).dropWhile (· ≠ 124) = 124 :: rest := by
    intro rest
    have hall : ∀ c ∈ path, (decide (c ≠ 124)) = true := by
      intro c hc
      simpa using fun h : c = 124 => hpath (h ▸ hc)
    refine ⟨?_, ?_⟩
    · rw [takeWhile_append_of_pos hall]
      simp
    · rw [dropWhile_append_of_pos hall]
      simp
  refine ⟨?_, ?_⟩
  · have hflags := wcstoul_ultow flags [] (by simp)
    rw [append_nil] at hflags
    unfold readLine
    simp only [hstrip, hparts, tail_cons, hflags]
    simp
  · have hflags := wcstoul_ultow flags (124 :: relocation) (by simp [hexValue])
    have happend : path ++ 124 :: ultow flags ++ 124 :: relocation =
        path ++ 124 :: (ultow flags ++ 124 :: relocation) := by simp
    unfold readLine
    simp only [hstrip, happend, hparts, tail_cons, hflags]
    simp

/-- A path that stays on its line, and in its part of it. -/
structure Writable (path : List WChar) : Prop where
  bar : 124 ∉ path
  lf : 10 ∉ path
  nul : 0 ∉ path

/-- A relocation, which is the last part of a line. -/
structure WritableTarget (path : List WChar) : Prop where
  lf : 10 ∉ path
  nul : 0 ∉ path

/-- The line of a mark can be read back. -/
structure Mark.Writable (translatePath : TranslatePath) (path : List WChar) (mark : Mark) :
    Prop where
  path : PathTree.Writable (translatePath.use path)
  relocation : ∀ r ∈ mark.relocation, WritableTarget (translatePath.use r)

def entryLine (translatePath : TranslatePath) (path : List WChar) (mark : Mark) : List WChar :=
  translatePath.use path ++ 124 :: ultow mark.flags ++
    (match mark.relocation with
      | some relocation => 124 :: translatePath.use relocation
      | none => []) ++ [13]

theorem appendPathEntry_eq (translatePath : TranslatePath) (path : List WChar) (mark : Mark) :
    appendPathEntry translatePath path mark = entryLine translatePath path mark ++ [10] := by
  simp [appendPathEntry, entryLine]

theorem readLine_entryLine {translatePath : TranslatePath} {path : List WChar} {mark : Mark}
    (h : mark.Writable translatePath path) :
    readLine (entryLine translatePath path mark) =
      some (translatePath.use path, ⟨mark.flags, mark.relocation.map translatePath.use⟩) := by
  cases hr : mark.relocation with
  | none =>
    rw [entryLine, hr]
    show readLine (_ ++ [] ++ [13]) = _
    rw [append_nil]
    exact (@readLine_written _ [] mark.flags h.path.bar).1
  | some relocation =>
    rw [entryLine, hr]
    exact (readLine_written mark.flags h.path.bar).2

theorem Mark.Writable.line {translatePath : TranslatePath} {path : List WChar} {mark : Mark}
    (h : mark.Writable translatePath path) {c : WChar}
    (hc : c ∈ entryLine translatePath path mark) : c ≠ 10 ∧ c ≠ 0 := by
  have hnumber : ∀ c ∈ ultow mark.flags, c ≠ 10 ∧ c ≠ 0 := by
    intro c hc
    have hlow := (mem_ultow hc).1
    exact ⟨fun h => absurd (h ▸ hlow) (by decide), fun h => absurd (h ▸ hlow) (by decide)⟩
  have hpath : ∀ c ∈ translatePath.use path, c ≠ 10 ∧ c ≠ 0 := fun c hc =>
    ⟨fun h10 => h.path.lf (h10 ▸ hc), fun h0 => h.path.nul (h0 ▸ hc)⟩
  cases hr : mark.relocation with
  | none =>
    simp only [entryLine, hr, append_nil, mem_append, mem_cons,
      not_mem_nil, or_false] at hc
    obtain (hc | rfl | hc) | rfl := hc
    · exact hpath c hc
    · decide
    · exact hnumber c hc
    · decide
  | some relocation =>
    have htarget := h.relocation relocation (by rw [hr]; rfl)
    simp only [entryLine, hr, mem_append, mem_cons, not_mem_nil,
      or_false] at hc
    obtain ((hc | rfl | hc) | rfl | hc) | rfl := hc
    · exact hpath c hc
    · decide
    · exact hnumber c hc
    · decide
    · exact ⟨fun h10 => htarget.lf (h10 ▸ hc), fun h0 => htarget.nul (h0 ▸ hc)⟩
    · decide

def readEntries (text : List WChar) : List (List WChar × Mark) :=
  (Ini.lines (cut text) []).filterMap readLine

theorem readEntries_written {translatePath : TranslatePath} (es : List (List WChar × Mark))
    (hes : ∀ e ∈ es, e.2.Writable translatePath e.1) :
    readEntries (es.flatMap fun e => appendPathEntry translatePath e.1 e.2) =
      es.map fun e =>
        (translatePath.use e.1, ⟨e.2.flags, e.2.relocation.map translatePath.use⟩) := by
  have hcut : cut (es.flatMap fun e => appendPathEntry translatePath e.1 e.2) =
      es.flatMap fun e => appendPathEntry translatePath e.1 e.2 := by
    refine takeWhile_eq_self_iff.mpr ?_
    intro c hc
    obtain ⟨e, he, hc⟩ := mem_flatMap.mp hc
    rw [appendPathEntry_eq, mem_append] at hc
    obtain hc | hc := hc
    · simpa using ((hes e he).line hc).2
    · obtain rfl : c = 10 := by simpa using hc
      decide
  rw [readEntries, hcut]
  clear hcut
  induction es with
  | nil => rfl
  | cons e es ih =>
    have he := hes e mem_cons_self
    have hlf : 10 ∉ entryLine translatePath e.1 e.2 := fun h => (he.line h).1 rfl
    rw [flatMap_cons, appendPathEntry_eq, append_assoc, singleton_append,
      Ini.lines_append hlf, nil_append, filterMap_cons, readLine_entryLine he,
      ih fun e' he' => hes e' (mem_cons_of_mem e he')]
    rfl

section Fold

variable (towlower : WChar → WChar)

def loadEntry (translatePath : TranslatePath) (root : PathNodes) (entry : List WChar × Mark) :
    PathNodes :=
  setPathFlags towlower root (translatePath.use entry.1) entry.2.flags 0
    (entry.2.relocation.map translatePath.use)

/-- `File_LoadPathTree_internal` of a text that can be read. -/
def loadPathTree (translatePath : TranslatePath) (text : List WChar) : PathNodes :=
  (readEntries text).foldl (loadEntry towlower translatePath) .nil

end Fold

end Sandboxie.PathTree
