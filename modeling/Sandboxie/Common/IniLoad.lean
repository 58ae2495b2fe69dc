import Mathlib.Data.List.TakeWhile
import Sandboxie.Common.Ini
import Sandboxie.Lib.Scan

/-!
# Loading the ini file

`CIniFile::LoadIni` of `common/ini.cpp` with `Read_BOM` of `common/bom.c`, pointer by pointer.
A pointer is an offset into the buffer that it points into; an access outside of the buffer gives
`none`, and so does a string of a negative length, for which the constructor of `std::wstring`
throws.
-/

namespace Sandboxie.IniLoad

open Ini Text Scan List Option

/-! ### The text -/

/-- `PrepLine`: the line, its end and the next line. -/
def prepLine (buf : List WChar) (iniDataPtr : Nat) : Option (Nat × Nat × Nat) := do
  let line ← skip isSpace buf iniDataPtr
  match ← find 0 10 buf line with
  | some stop => return (line, ← back isSpace buf line stop, stop + 1)
  | none =>
    match ← find 0 0 buf line with
    | some stop => return (line, ← back isSpace buf line stop, stop)
    | none => none

def readEntry (buf : List WChar) (line stop : Nat) : Option Entry := do
  if (← buf[line]?) = 35 then return ⟨[], ← slice buf line stop⟩
  match ← find 0 61 buf line with
  | none => return ⟨[], ← slice buf line stop⟩
  | some separator =>
    if stop < separator then return ⟨[], ← slice buf line stop⟩
    else
      let nameEnd ← back isBlank buf line separator
      let valueStart ← skip isBlank buf (separator + 1)
      return ⟨← slice buf line nameEnd, ← slice buf valueStart stop⟩

/-- The loop of `ReadSection`.  Each turn goes on in the text, so `fuel` is a number that is
above the length of its rest. -/
def readEntries (buf : List WChar) : Nat → Nat → Option (List Entry × Nat)
  | 0, _ => none
  | fuel + 1, iniDataPtr => do
    if (← buf[iniDataPtr]?) = 0 then return ([], iniDataPtr)
    let (line, stop, next) ← prepLine buf iniDataPtr
    if (← buf[line]?) = 91 then return ([], iniDataPtr)
    let entry ← readEntry buf line stop
    let (entries, iniDataPtr) ← readEntries buf fuel next
    return (entry :: entries, iniDataPtr)

def readSection (buf : List WChar) (iniDataPtr : Nat) : Option (List Entry × Nat) :=
  (readEntries buf buf.length iniDataPtr).map fun r =>
    ((r.1.reverse.dropWhile fun e => e.name = [] && e.value = []).reverse, r.2)

/-- `ReadHeader`: the name of the section, if there is a header, and the next line. -/
def readHeader (buf : List WChar) (iniDataPtr : Nat) : Option (Option (List WChar) × Nat) := do
  let (line, stop, next) ← prepLine buf iniDataPtr
  if (← buf[line]?) = 91 then
    match ← find 0 93 buf line with
    | none => return (some (← slice buf (line + 1) stop), next)
    | some bracket =>
      if stop < bracket then return (some (← slice buf (line + 1) stop), next)
      else return (some (← slice buf (line + 1) bracket), next)
  else return (none, next)

/-- The loop of `LoadIni` over the sections, the last of which has the name.  Each turn but the
last goes over a header, so `fuel` is a number that is above the length of the text. -/
def readSections (buf : List WChar) : Nat → List WChar → Nat → Option (List Section)
  | 0, _, _ => none
  | fuel + 1, name, iniDataPtr => do
    if (← buf[iniDataPtr]?) = 0 then return [⟨name, []⟩]
    let (entries, iniDataPtr) ← readSection buf iniDataPtr
    if (← buf[iniDataPtr]?) = 0 then return [⟨name, entries⟩]
    match ← readHeader buf iniDataPtr with
    | (none, _) => return [⟨name, entries⟩]
    | (some next, iniDataPtr) =>
      return ⟨name, entries⟩ :: (← readSections buf fuel next iniDataPtr)

/-! ### The bytes -/

def startsWith : List UInt8 → List UInt8 → Option Bool
  | [], _ => some true
  | _ :: _, [] => none
  | m :: mark, b :: data => if b = m then startsWith mark data else some false

/-- The loop of `Read_BOM` over the first eight pairs of bytes: whether the second ones, and
whether the first ones, are all null. -/
def looksUnicode (len : Nat) : Nat → Bool × Bool → List UInt8 → Option (Bool × Bool)
  | pos, looks, a :: b :: data =>
    if pos + 1 < min len 16 then
      looksUnicode len (pos + 2) (looks.1 && b = 0, looks.2 && a = 0) data
    else some looks
  | pos, looks, _ => if pos + 1 < min len 16 then none else some looks

def hasMark (mark data : List UInt8) (len : Nat) : Option Bool :=
  if mark.length ≤ len then startsWith mark data else some false

/-- `Read_BOM`: the encoding, and how many bytes the mark has. -/
def readBOM (data : List UInt8) (len : Nat) : Option (Nat × Nat) := do
  let utf8 ← hasMark [0xEF, 0xBB, 0xBF] data len
  if utf8 then return (1, 3)
  let utf16LE ← hasMark [0xFF, 0xFE] data len
  if utf16LE then return (0, 2)
  let utf16BE ← hasMark [0xFE, 0xFF] data len
  if utf16BE then return (2, 2)
  let looks ← looksUnicode len 0 (true, true) data
  if !looks.1 && !looks.2 then return (1, 0)
  if !looks.1 && looks.2 then return (2, 0)
  return (0, 0)

/-- The loop of `LoadIni` that swaps the bytes of each pair that begins below the bound. -/
def swapBytes (bound : Nat) : Nat → List UInt8 → Option (List UInt8)
  | i, a :: b :: data =>
    if i < bound then (swapBytes bound (i + 2) data).map fun data => b :: a :: data
    else some (a :: b :: data)
  | i, data => if i < bound then none else some data

def toWide : List UInt8 → List WChar
  | a :: b :: data => (a.toNat + 2 ^ 8 * b.toNat) :: toWide data
  | _ => []

def terminate (buf : List WChar) (n : Nat) : Option (List WChar) :=
  if n < buf.length then some (buf.set n 0) else none

/-- The buffer with the text that `LoadIni` decodes; `data` is what is behind the mark, and
`multiByteToWideChar` is the function of Windows, which gives nothing for nothing. -/
def decode (multiByteToWideChar : List UInt8 → List WChar) (encoding : Nat) (data : List UInt8)
    (bytesRead : Nat) : Option (List WChar) :=
  if encoding = 1 then
    let chars := if bytesRead = 0 then [] else multiByteToWideChar (data.take bytesRead)
    -- the buffer has room for one more than these
    terminate (chars ++ [0]) chars.length
  else if encoding = 2 then
    -- `bytesRead - 1` is a `DWORD`
    (swapBytes ((bytesRead + 2 ^ 32 - 1) % 2 ^ 32) 0 data).bind fun data =>
      terminate (toWide data) (bytesRead / 2)
  else terminate (toWide data) (bytesRead / 2)

/-- What is behind the file in the buffer that is allocated for it. -/
abbrev Slack := { slack : List UInt8 // slack.length = 128 }

/-- `LoadIni` of a file that can be read. -/
def loadIni (multiByteToWideChar : List UInt8 → List WChar) (slack : Slack) (file : List UInt8) :
    Option (Status × CIniFile) :=
  if 384 * 1024 * 1024 ≤ file.length then some (.insufficientResources, ⟨0, []⟩)
  else if file = [] then some (.success, ⟨0, []⟩)
  else do
    let (encoding, mark) ← readBOM (file ++ slack) file.length
    let buf ← decode multiByteToWideChar encoding ((file ++ slack).drop mark) (file.length - mark)
    let sections ← readSections buf buf.length [] 0
    return (.success, ⟨encoding, sections⟩)

/-! ### Lines -/

/-- What is behind a line: nothing, or a line feed and more. -/
def Behind (u : List WChar) : Prop := u = [] ∨ ∃ u', u = 10 :: u'

theorem exists_line {s : List WChar} (hs : s ≠ []) :
    ∃ raw u, s = raw ++ u ∧ 10 ∉ raw ∧ Behind u ∧ lines s [] = raw :: lines (u.drop 1) [] ∧
      raw ++ u.take 1 ≠ [] := by
  let raw := s.takeWhile (· ≠ 10)
  have hraw : 10 ∉ raw := fun hmem => by simpa using mem_takeWhile_imp hmem
  have hsplit : s = raw ++ s.dropWhile (· ≠ 10) := takeWhile_append_dropWhile.symm
  cases hu : s.dropWhile (· ≠ 10) with
  | nil =>
    rw [hu, append_nil] at hsplit
    refine ⟨raw, [], by rw [append_nil]; exact hsplit, hraw, .inl rfl, ?_, ?_⟩
    · rw [hsplit, lines_last hraw, if_neg (by rw [← hsplit]; exact hs)]
      rfl
    · rw [take_nil, append_nil, ← hsplit]
      exact hs
  | cons c u =>
    have hc : c = 10 := by
      have hnot := head?_dropWhile_not (· ≠ 10) s
      rw [hu] at hnot
      simpa using hnot
    subst hc
    rw [hu] at hsplit
    refine ⟨raw, 10 :: u, hsplit, hraw, .inr ⟨u, rfl⟩, ?_, by simp⟩
    rw [hsplit, lines_append hraw]
    rfl

theorem takeWhile_append_behind {p : WChar → Bool} (hp : p 10 = false) (l : List WChar)
    {u : List WChar} (hu : Behind u) : (l ++ u).takeWhile p = l.takeWhile p := by
  induction l with
  | nil =>
    rcases hu with rfl | ⟨u', rfl⟩
    · rfl
    · rw [nil_append, takeWhile_cons_of_neg (by simp [hp])]
      rfl
  | cons c l ih =>
    rw [cons_append]
    by_cases hc : p c = true
    · rw [takeWhile_cons_of_pos hc, takeWhile_cons_of_pos hc, ih]
    · rw [takeWhile_cons_of_neg hc, takeWhile_cons_of_neg hc]

theorem headD_line {c : WChar} (hc : c ≠ 0) (hc' : c ≠ 10) {l u : List WChar} (hu : Behind u) :
    (l ++ u).headD 0 = c ↔ l.head? = some c := by
  cases l with
  | nil =>
    rcases hu with rfl | ⟨u', rfl⟩
    · simp [Ne.symm hc]
    · simp [Ne.symm hc']
  | cons x l => simp

theorem prepLine_snd (raw : List WChar) :
    (Ini.prepLine raw).2 = ((Ini.prepLine raw).1.reverse.dropWhile isSpace).reverse := rfl

theorem trim_append_cons {p : WChar → Bool} {c : WChar} (hc : p c = false) (a v : List WChar) :
    ((a ++ c :: v).reverse.dropWhile p).reverse = a ++ c :: (v.reverse.dropWhile p).reverse := by
  have hrev : (a ++ c :: v).reverse = v.reverse ++ c :: a.reverse := by simp
  rw [hrev, dropWhile_append]
  split
  · rename_i hnil
    rw [isEmpty_iff.mp hnil, dropWhile_cons_of_neg (by simp [hc])]
    simp
  · simp

theorem trim_isPrefix (p : WChar → Bool) (l : List WChar) :
    (l.reverse.dropWhile p).reverse <+: l := by
  have hsuffix := reverse_prefix.mpr (dropWhile_suffix p (l := l.reverse))
  rwa [reverse_reverse] at hsuffix

/-! The parts of a setting, in front of the first `=` and behind it. -/

theorem takeWhile_sep {a : List WChar} (ha : 61 ∉ a) (v : List WChar) :
    (a ++ 61 :: v).takeWhile (· ≠ 61) = a := by
  have hfirst : ∀ x ∈ a, (decide (x ≠ 61)) = true := fun x hx =>
    decide_eq_true fun hx61 => ha (hx61 ▸ hx)
  rw [takeWhile_append_of_pos hfirst, takeWhile_cons_of_neg (by simp), append_nil]

theorem drop_sep {a : List WChar} (ha : 61 ∉ a) (v : List WChar) :
    ((a ++ 61 :: v).dropWhile (· ≠ 61)).drop 1 = v := by
  have hfirst : ∀ x ∈ a, (decide (x ≠ 61)) = true := fun x hx =>
    decide_eq_true fun hx61 => ha (hx61 ▸ hx)
  rw [dropWhile_append_of_pos hfirst, dropWhile_cons_of_neg (by simp)]
  rfl

theorem value_start (a v : List WChar) :
    (a ++ 61 :: v).length - (v.dropWhile isBlank).length =
      a.length + 1 + (v.takeWhile isBlank).length := by
  have hv := congrArg List.length (takeWhile_append_dropWhile (p := isBlank) (l := v))
  rw [length_append] at hv
  simp only [length_append, length_cons]
  omega

theorem value_stop (a v : List WChar) :
    (a ++ 61 :: (v.reverse.dropWhile isSpace).reverse).length =
      a.length + 1 + (v.reverse.dropWhile isSpace).length := by
  simp only [length_append, length_cons, length_reverse]
  omega

section Pointers

variable {buf : List WChar} {ptr : Nat} {raw u : List WChar}

theorem headD_ne_zero {s : List WChar} (h : Rest 0 buf ptr s) (hs : s ≠ []) :
    s.headD 0 ≠ 0 := by
  cases s with
  | nil => exact absurd rfl hs
  | cons c r => exact fun hc => h.1 (hc ▸ mem_cons_self)

theorem rest_next (h : Rest 0 buf ptr (raw ++ u)) :
    Rest 0 buf (ptr + (raw ++ u.take 1).length) (u.drop 1) := by
  have hsplit : raw ++ u = (raw ++ u.take 1) ++ u.drop 1 := by
    rw [append_assoc, take_append_drop]
  rw [hsplit] at h
  exact h.move

theorem length_next (hne : raw ++ u.take 1 ≠ []) : (u.drop 1).length < (raw ++ u).length := by
  have hpos := length_pos_iff.mpr hne
  have hlen : (raw ++ u.take 1).length + (u.drop 1).length = (raw ++ u).length := by
    rw [← length_append, append_assoc, take_append_drop]
  omega

theorem prepLine_eq (h : Rest 0 buf ptr (raw ++ u)) (hraw : 10 ∉ raw) (hu : Behind u) :
    prepLine buf ptr = some (ptr + (raw.takeWhile isSpace).length,
      ptr + (raw.takeWhile isSpace).length + (Ini.prepLine raw).2.length,
      ptr + (raw ++ u.take 1).length) ∧
    Rest 0 buf (ptr + (raw.takeWhile isSpace).length) ((Ini.prepLine raw).1 ++ u) := by
  have hsplit : raw = raw.takeWhile isSpace ++ (Ini.prepLine raw).1 :=
    takeWhile_append_dropWhile.symm
  have hlength : raw.length = (raw.takeWhile isSpace).length + (Ini.prepLine raw).1.length := by
    rw [← length_append, ← hsplit]
  have hline : Rest 0 buf (ptr + (raw.takeWhile isSpace).length) ((Ini.prepLine raw).1 ++ u) := by
    rw [hsplit, append_assoc] at h
    exact h.move
  have hskip := h.skip_eq (p := isSpace) (by decide)
  rw [takeWhile_append_behind (by decide) raw hu] at hskip
  have hlf : 10 ∉ (Ini.prepLine raw).1 := fun hmem =>
    hraw (by rw [hsplit]; exact mem_append_right _ hmem)
  have hback := hline.back_eq (p := isSpace)
  have hlen : (Ini.prepLine raw).2.length =
      ((Ini.prepLine raw).1.reverse.dropWhile isSpace).length := by
    rw [prepLine_snd, length_reverse]
  refine ⟨?_, hline⟩
  rw [prepLine, hskip, hlen]
  rcases hu with rfl | ⟨u', rfl⟩
  · rw [append_nil] at hline
    simp only [bind_eq_bind, bind_some, hline.find_none hlf (by decide),
      hline.find_zero, hback]
    simp [hlength, Nat.add_assoc]
  · simp only [bind_eq_bind, bind_some, hline.find_eq hlf, hback]
    simp [hlength, Nat.add_assoc]

theorem slice_name {line : Nat} {a w : List WChar} (h : Rest 0 buf line (a ++ w)) :
    slice buf line (line + (a.reverse.dropWhile isBlank).length) =
      some (a.reverse.dropWhile isBlank).reverse := by
  have htrim := trim_isPrefix isBlank a
  have hlen := htrim.length_le
  rw [length_reverse] at hlen
  have hslice := h.slice_eq (n := (a.reverse.dropWhile isBlank).length) (k := 0)
    (by rw [length_append]; omega)
  rw [take_append_of_le_length hlen, if_neg (by omega), drop_zero] at hslice
  rw [prefix_iff_eq_take, length_reverse] at htrim
  rw [htrim]
  exact hslice

theorem head?_comment {l content : List WChar} (hu : Behind u)
    (hcontent : content = (l.reverse.dropWhile isSpace).reverse) :
    content.head? = some 35 ↔ (l ++ u).headD 0 = 35 := by
  rw [headD_line (by decide) (by decide) hu]
  constructor
  · intro hhead
    obtain ⟨t, rfl⟩ : content <+: l := hcontent ▸ trim_isPrefix isSpace l
    rw [head?_append, hhead]
    rfl
  · intro hhead
    obtain ⟨r, rfl⟩ : ∃ r, l = 35 :: r := by
      cases l with
      | nil => cases hhead
      | cons c r => exact ⟨r, by rw [Option.some.inj hhead]⟩
    rw [hcontent, show (35 : WChar) :: r = [] ++ 35 :: r from rfl, trim_append_cons (by decide)]
    rfl

theorem readEntry_eq {line : Nat} {l content : List WChar} (h : Rest 0 buf line (l ++ u))
    (hu : Behind u) (hcontent : content = (l.reverse.dropWhile isSpace).reverse) :
    readEntry buf line (line + content.length) = Ini.readEntry l content := by
  have hbegin : content <+: l := by
    rw [hcontent]
    exact trim_isPrefix isSpace l
  have hle : content.length ≤ (l ++ u).length := by
    rw [length_append]
    exact Nat.le_add_right_of_le hbegin.length_le
  have htake : (l ++ u).take content.length = content := by
    rw [take_append_of_le_length hbegin.length_le]
    exact (prefix_iff_eq_take.mp hbegin).symm
  have hwhole : slice buf line (line + content.length) = some content := by
    have hslice := h.slice_eq (k := 0) hle
    rw [htake] at hslice
    exact hslice
  have hhash := head?_comment hu hcontent
  rw [readEntry, Ini.readEntry, h.cell]
  simp only [bind_eq_bind, bind_some]
  by_cases hcomment : (l ++ u).headD 0 = 35
  · rw [if_pos hcomment, hwhole, if_pos (by simp [hhash.mpr hcomment])]
    rfl
  rw [if_neg hcomment]
  have hnoHash : content.head? ≠ some 35 := fun hhead => hcomment (hhash.mp hhead)
  by_cases hmem : 61 ∈ l
  · obtain ⟨a, v, rfl, ha⟩ := eq_append_cons_of_mem hmem
    have hcontent : content = a ++ 61 :: (v.reverse.dropWhile isSpace).reverse := by
      rw [hcontent, trim_append_cons (by decide)]
    have hcontains : 61 ∈ content := by
      rw [hcontent]
      simp
    rw [if_neg (by simp [hcontains, hnoHash])]
    have hsep : Rest 0 buf line (a ++ 61 :: (v ++ u)) := by simpa using h
    rw [hsep.find_eq ha]
    have hvalue : Rest 0 buf (line + a.length + 1) (v ++ u) := by
      have hmove := (show Rest 0 buf line ((a ++ [61]) ++ (v ++ u)) by simpa using h).move
      rwa [length_append, length_singleton, ← Nat.add_assoc] at hmove
    have hskip := hvalue.skip_eq (p := isBlank) (by decide)
    rw [takeWhile_append_behind (by decide) v hu] at hskip
    have hback := hsep.back_eq (p := isBlank)
    have hname := slice_name hsep
    have hlength : content.length = a.length + 1 + (v.reverse.dropWhile isSpace).length := by
      rw [hcontent, value_stop]
    have hstart := value_start a v
    have hnameEq : content.takeWhile (· ≠ 61) = a := by
      rw [hcontent, takeWhile_sep ha]
    have hvalueEq : (((a ++ 61 :: v).dropWhile (· ≠ 61)).drop 1).dropWhile isBlank =
        v.dropWhile isBlank := by
      rw [drop_sep ha]
    have hslice := h.slice_eq (k := a.length + 1 + (v.takeWhile isBlank).length) hle
    rw [htake, ← Nat.add_assoc, ← Nat.add_assoc] at hslice
    simp only [bind_some]
    rw [if_neg (by omega), hback]
    simp only [bind_some, hskip, hname, hslice, hnameEq, hvalueEq, hstart]
    by_cases hshort : content.length < a.length + 1 + (v.takeWhile isBlank).length
    · rw [if_pos hshort, if_neg (by omega)]
      rfl
    · rw [if_neg hshort, if_pos (by omega)]
      rfl
  · have hnot : 61 ∉ content := fun hc => hmem (hbegin.mem hc)
    rw [if_pos (by simp [hnot]), hwhole]
    rcases hu with rfl | ⟨u', rfl⟩
    · rw [append_nil] at h
      rw [h.find_none hmem (by decide)]
      rfl
    have hlf : Rest 0 buf line ((l ++ [10]) ++ u') := by simpa using h
    have hlen := hbegin.length_le
    rcases hlf.find_beyond (c := 61) (by simp [hmem]) with hfind | ⟨k, hfind, hk⟩
    · rw [hfind]
      rfl
    · rw [length_append, length_singleton] at hk
      rw [hfind]
      simp only [bind_some]
      rw [if_pos (by omega)]
      rfl

theorem cell_line {line : Nat} {l : List WChar} {c : WChar} (h : Rest 0 buf line (l ++ u))
    (hu : Behind u) (hc : c ≠ 0) (hc' : c ≠ 10) :
    ∃ x, buf[line]? = some x ∧ (x = c ↔ l.head? = some c) :=
  ⟨_, h.cell, headD_line hc hc' hu⟩

/-- The pointers read the entries of the lines, and stop at the header in front of the others. -/
theorem readEntries_eq : ∀ {fuel ptr : Nat} {s : List WChar}, Rest 0 buf ptr s →
    s.length < fuel →
    (Ini.readEntries (lines s []) = none → readEntries buf fuel ptr = none) ∧
    ∀ entries rest, Ini.readEntries (lines s []) = some (entries, rest) →
      ∃ s₁ s₂, s = s₁ ++ s₂ ∧ lines s₂ [] = rest ∧
        readEntries buf fuel ptr = some (entries, ptr + s₁.length) := by
  intro fuel
  induction fuel with
  | zero => intro ptr s _ hfuel; omega
  | succ fuel ih =>
    intro ptr s h hfuel
    have hcell := h.cell
    by_cases hs : s = []
    · subst hs
      refine ⟨fun hnone => (by cases hnone), fun entries rest hsome => ⟨[], [], rfl, ?_, ?_⟩⟩
      · cases hsome
        rfl
      · cases hsome
        rw [readEntries, hcell]
        rfl
    · obtain ⟨raw, u, rfl, hraw, hu, hlines, hne⟩ := exists_line hs
      have hzero := headD_ne_zero h hs
      obtain ⟨hprep, hline⟩ := prepLine_eq h hraw hu
      obtain ⟨x, hx, hheader⟩ := cell_line hline hu (c := 91) (by decide) (by decide)
      have hentry := readEntry_eq hline hu (prepLine_snd raw)
      have hshort : (u.drop 1).length < fuel := by
        have hlen := length_next hne
        omega
      obtain ⟨ihNone, ihSome⟩ := ih (rest_next h) hshort
      rw [hlines, Ini.readEntries, readEntries, hcell, hprep]
      simp only [bind_eq_bind, bind_some, hx]
      rw [if_neg hzero]
      by_cases hbracket : x = 91
      · rw [if_pos hbracket, if_pos (hheader.mp hbracket)]
        refine ⟨fun hnone => (by cases hnone), fun entries rest hsome =>
          ⟨[], raw ++ u, rfl, ?_, ?_⟩⟩
        · cases hsome
          exact hlines
        · cases hsome
          rfl
      · rw [if_neg hbracket, if_neg (fun hhead => hbracket (hheader.mpr hhead)), hentry]
        cases Ini.readEntry (Ini.prepLine raw).1 (Ini.prepLine raw).2 with
        | none => exact ⟨fun _ => rfl, fun _ _ hsome => by cases hsome⟩
        | some entry =>
          cases hrest : Ini.readEntries (lines (u.drop 1) []) with
          | none =>
            rw [ihNone hrest]
            exact ⟨fun _ => rfl, fun _ _ hsome => by cases hsome⟩
          | some r =>
            obtain ⟨s₁, s₂, hs₁₂, hlines₂, hread⟩ := ihSome _ _ hrest
            refine ⟨fun hnone => (by cases hnone), fun entries rest hsome => ?_⟩
            cases hsome
            refine ⟨raw ++ u.take 1 ++ s₁, s₂, ?_, hlines₂, ?_⟩
            · rw [append_assoc, ← hs₁₂, append_assoc, take_append_drop]
            · have hplace : ptr + (raw ++ u.take 1).length + s₁.length =
                  ptr + (raw ++ u.take 1 ++ s₁).length := by
                rw [@length_append _ (raw ++ u.take 1) s₁, Nat.add_assoc]
              rw [hread, hplace]
              rfl

theorem readSection_eq {ptr : Nat} {s : List WChar} (h : Rest 0 buf ptr s) :
    (Ini.readSection (lines s []) = none → readSection buf ptr = none) ∧
    ∀ entries rest, Ini.readSection (lines s []) = some (entries, rest) →
      ∃ s₁ s₂, s = s₁ ++ s₂ ∧ lines s₂ [] = rest ∧
        readSection buf ptr = some (entries, ptr + s₁.length) := by
  have hlen := h.length_le
  obtain ⟨hnone, hsome⟩ := readEntries_eq h (show s.length < buf.length by omega)
  rw [Ini.readSection, readSection]
  cases hread : Ini.readEntries (lines s []) with
  | none =>
    rw [hnone hread]
    exact ⟨fun _ => rfl, fun _ _ h => by cases h⟩
  | some r =>
    obtain ⟨s₁, s₂, hs, hlines, hptr⟩ := hsome _ _ hread
    refine ⟨fun h => (by cases h), fun _ _ h => ⟨s₁, s₂, hs, ?_, ?_⟩⟩
    · cases h
      exact hlines
    · cases h
      rw [hptr]
      rfl

theorem readHeader_eq (h : Rest 0 buf ptr (raw ++ u)) (hraw : 10 ∉ raw) (hu : Behind u)
    (hheader : (Ini.prepLine raw).1.head? = some 91) :
    ∃ name, readHeader buf ptr = some (some name, ptr + (raw ++ u.take 1).length) := by
  obtain ⟨hprep, hline⟩ := prepLine_eq h hraw hu
  obtain ⟨x, hx, hiff⟩ := cell_line hline hu (c := 91) (by decide) (by decide)
  generalize ptr + (raw.takeWhile isSpace).length = line at hprep hline hx
  have hlen := hline.length_le
  rw [length_append] at hlen
  have hpos : 1 ≤ (Ini.prepLine raw).2.length ∧
      (Ini.prepLine raw).2.length ≤ (Ini.prepLine raw).1.length := by
    obtain ⟨r, hr⟩ : ∃ r, (Ini.prepLine raw).1 = [] ++ 91 :: r := by
      cases hl : (Ini.prepLine raw).1 with
      | nil => rw [hl] at hheader; cases hheader
      | cons c r =>
        rw [hl] at hheader
        exact ⟨r, by rw [Option.some.inj hheader]; rfl⟩
    refine ⟨?_, (trim_isPrefix isSpace _).length_le⟩
    rw [prepLine_snd, hr, trim_append_cons (by decide)]
    simp
  have hslice : ∀ stop, line + 1 ≤ stop → stop ≤ line + (Ini.prepLine raw).2.length →
      ∃ name, slice buf (line + 1) stop = some name := by
    intro stop hlow hhigh
    exact ⟨_, if_neg (by omega)⟩
  obtain ⟨whole, hwhole⟩ := hslice _ (by omega) le_rfl
  have hfind : find 0 93 buf line = some none ∨
      ∃ k, find 0 93 buf line = some (some k) ∧ line + 1 ≤ k := by
    obtain ⟨r, hr⟩ : ∃ r, (Ini.prepLine raw).1 ++ u = [91] ++ r := by
      cases hl : (Ini.prepLine raw).1 with
      | nil => rw [hl] at hheader; cases hheader
      | cons c r =>
        rw [hl] at hheader
        exact ⟨r ++ u, by rw [Option.some.inj hheader]; rfl⟩
    rw [hr] at hline
    exact hline.find_beyond (by decide)
  rw [readHeader, hprep]
  simp only [bind_eq_bind, bind_some, hx]
  rw [if_pos (hiff.mpr hheader)]
  rcases hfind with hfind | ⟨k, hfind, hk⟩
  · simp only [hfind, hwhole, bind_some]
    exact ⟨whole, rfl⟩
  · simp only [hfind, bind_some]
    by_cases hbeyond : line + (Ini.prepLine raw).2.length < k
    · simp only [if_pos hbeyond, hwhole, bind_some]
      exact ⟨whole, rfl⟩
    · obtain ⟨name, hname⟩ := hslice k hk (by omega)
      simp only [if_neg hbeyond, hname, bind_some]
      exact ⟨name, rfl⟩

end Pointers

/-! ### Blank values -/

/-- A setting whose value is white space that begins with a blank: the blanks are skipped from
the front, and cut off at the end of the line. -/
def BlankValue (raw : List WChar) : Prop :=
  let line := raw.dropWhile isSpace
  let value := (line.dropWhile (· ≠ 61)).drop 1
  line.head? ≠ some 35 ∧ line.head? ≠ some 91 ∧ value.head?.any isBlank = true ∧
    value.all isSpace = true

instance (raw : List WChar) : Decidable (BlankValue raw) := inferInstanceAs (Decidable (_ ∧ _))

theorem length_trim_lt_iff (v : List WChar) :
    (v.reverse.dropWhile isSpace).length < (v.takeWhile isBlank).length ↔
      v.head?.any isBlank = true ∧ v.all isSpace = true := by
  have hblank : ∀ c, isBlank c = true → isSpace c = true := fun c hc => by simp [isSpace, hc]
  by_cases hall : v.all isSpace = true
  · have hnil : v.reverse.dropWhile isSpace = [] := by
      rw [dropWhile_eq_nil_iff]
      intro c hc
      exact all_eq_true.mp hall c (mem_reverse.mp hc)
    rw [hnil]
    cases v with
    | nil => simp
    | cons c v =>
      by_cases hc : isBlank c = true
      · rw [takeWhile_cons_of_pos hc]
        simp only [length_nil, length_cons, head?_cons, any_some, hc, hall]
        simp
      · rw [takeWhile_cons_of_neg hc]
        simp [hc]
  · refine iff_of_false (fun hlt => ?_) fun h => hall h.2
    obtain ⟨a, c, w, hv, hc, hw⟩ : ∃ a c w, v = a ++ c :: w ∧ isSpace c = false ∧
        v.takeWhile isBlank <+: a := by
      have hsplit := takeWhile_append_dropWhile (p := isSpace) (l := v)
      have hnot := head?_dropWhile_not isSpace v
      cases hd : v.dropWhile isSpace with
      | nil =>
        refine absurd (all_eq_true.mpr fun c hc => ?_) hall
        rw [hd, append_nil] at hsplit
        rw [← hsplit] at hc
        exact mem_takeWhile_imp hc
      | cons c w =>
        rw [hd] at hsplit hnot
        refine ⟨v.takeWhile isSpace, c, w, hsplit.symm, by simpa using hnot, ?_⟩
        conv_lhs => rw [← hsplit]
        have hcb : isBlank c = false := by
          cases hcb : isBlank c with
          | false => rfl
          | true => exact absurd (hblank c hcb) (by simpa using hnot)
        rw [takeWhile_append]
        split
        · have hnone : List.takeWhile isBlank (c :: w) = [] :=
            takeWhile_cons_of_neg (by simp [hcb])
          simp only [hnone, append_nil, prefix_rfl]
        · exact takeWhile_prefix _
    have hlen := congrArg List.length (trim_append_cons hc a w)
    rw [← hv, length_reverse] at hlen
    simp only [length_append, length_cons] at hlen
    have := hw.length_le
    omega

theorem readEntry_none_iff {raw : List WChar} (hheader : (Ini.prepLine raw).1.head? ≠ some 91) :
    Ini.readEntry (Ini.prepLine raw).1 (Ini.prepLine raw).2 = none ↔ BlankValue raw := by
  rw [prepLine_snd, BlankValue]
  change (Ini.prepLine raw).1.head? ≠ some 91 at hheader
  show _ ↔ (Ini.prepLine raw).1.head? ≠ some 35 ∧ (Ini.prepLine raw).1.head? ≠ some 91 ∧ _
  generalize hl : (Ini.prepLine raw).1 = l at *
  have hl : raw.dropWhile isSpace = l := hl
  rw [hl]
  generalize hcontent : (l.reverse.dropWhile isSpace).reverse = content
  have hbegin : content <+: l := by
    rw [← hcontent]
    exact trim_isPrefix isSpace l
  by_cases hmem : 61 ∈ l
  · obtain ⟨a, v, rfl, ha⟩ := eq_append_cons_of_mem hmem
    rw [trim_append_cons (by decide)] at hcontent
    have hvalue := drop_sep ha v
    have hstart := value_start a v
    have hlength : content.length = a.length + 1 + (v.reverse.dropWhile isSpace).length := by
      rw [← hcontent, value_stop]
    have hhead : content.head? = (a ++ 61 :: v).head? := by
      rw [← hcontent]
      cases a <;> rfl
    have hcontains : 61 ∈ content := by
      rw [← hcontent]
      simp
    rw [Ini.readEntry, hvalue]
    dsimp only
    rw [hstart, hhead]
    by_cases hhash : (a ++ 61 :: v).head? = some 35
    · rw [if_pos (by simp [hhash])]
      exact iff_of_false (by simp) fun h => h.1 hhash
    rw [if_neg (by rw [contains_iff_mem.mpr hcontains]; simpa using hhash)]
    have hiff := length_trim_lt_iff v
    constructor
    · intro hnone
      refine ⟨hhash, hheader, hiff.mp ?_⟩
      by_contra hlt
      rw [if_pos (by omega)] at hnone
      cases hnone
    · rintro ⟨-, -, hblank⟩
      have hlt := hiff.mpr hblank
      exact if_neg (by omega)
  · have hnot : 61 ∉ content := fun hc => hmem (hbegin.mem hc)
    have hnone : l.dropWhile (· ≠ 61) = [] := by
      rw [dropWhile_eq_nil_iff]
      intro x hx
      exact decide_eq_true fun hx61 => hmem (hx61 ▸ hx)
    rw [Ini.readEntry, if_pos (by simp [hnot]), hnone]
    simp

theorem not_blankValue_header {raw : List WChar}
    (h : (Ini.prepLine raw).1.head? = some 91) : ¬ BlankValue raw := fun hblank => hblank.2.1 h

theorem readEntries_none {ls : List (List WChar)} (h : Ini.readEntries ls = none) :
    ∃ raw ∈ ls, BlankValue raw := by
  induction ls with
  | nil => cases h
  | cons raw ls ih =>
    rw [Ini.readEntries] at h
    by_cases hheader : (Ini.prepLine raw).1.head? = some 91
    · rw [if_pos hheader] at h
      cases h
    · rw [if_neg hheader] at h
      cases hentry : Ini.readEntry (Ini.prepLine raw).1 (Ini.prepLine raw).2 with
      | none => exact ⟨raw, mem_cons_self, (readEntry_none_iff hheader).mp hentry⟩
      | some entry =>
        rw [hentry] at h
        obtain ⟨raw', hmem, hblank⟩ := ih (by simpa using h)
        exact ⟨raw', mem_cons_of_mem _ hmem, hblank⟩

theorem readEntries_some {ls : List (List WChar)} : ∀ {entries rest},
    Ini.readEntries ls = some (entries, rest) →
    ∃ front, ls = front ++ rest ∧ (∀ raw ∈ front, ¬ BlankValue raw) ∧
      ∀ raw ∈ rest.head?, (Ini.prepLine raw).1.head? = some 91 := by
  induction ls with
  | nil =>
    intro entries rest h
    cases h
    exact ⟨[], rfl, fun _ h => (by cases h), fun _ h => (by cases h)⟩
  | cons raw ls ih =>
    intro entries rest h
    rw [Ini.readEntries] at h
    by_cases hheader : (Ini.prepLine raw).1.head? = some 91
    · rw [if_pos hheader] at h
      cases h
      refine ⟨[], rfl, fun _ h => (by cases h), fun raw' hraw' => ?_⟩
      rw [← Option.some.inj hraw']
      exact hheader
    · rw [if_neg hheader] at h
      cases hentry : Ini.readEntry (Ini.prepLine raw).1 (Ini.prepLine raw).2 with
      | none => rw [hentry] at h; cases h
      | some entry =>
        rw [hentry] at h
        cases hread : Ini.readEntries ls with
        | none => rw [hread] at h; cases h
        | some r =>
          rw [hread] at h
          cases h
          obtain ⟨front, hls, hfront, hrest⟩ := ih hread
          refine ⟨raw :: front, by rw [hls]; rfl, fun raw' hraw' => ?_, hrest⟩
          rcases mem_cons.mp hraw' with rfl | hraw'
          · intro hblank
            rw [(readEntry_none_iff hheader).mpr hblank] at hentry
            cases hentry
          · exact hfront raw' hraw'

theorem readSections_isSome_iff {buf : List WChar} : ∀ {fuel ptr : Nat} {s : List WChar}
    (name : List WChar), Rest 0 buf ptr s → s.length < fuel →
    ((readSections buf fuel name ptr).isSome = true ↔ ∀ raw ∈ lines s [], ¬ BlankValue raw) := by
  intro fuel
  induction fuel with
  | zero => intro ptr s name _ hfuel; omega
  | succ fuel ih =>
    intro ptr s name h hfuel
    have hcell := h.cell
    rw [readSections, hcell]
    simp only [bind_eq_bind, bind_some]
    cases s with
    | nil =>
      refine iff_of_true rfl fun raw hraw => ?_
      rw [show lines [] [] = [] from rfl] at hraw
      cases hraw
    | cons c r =>
      have hzero := headD_ne_zero h (cons_ne_nil c r)
      rw [if_neg hzero]
      obtain ⟨hnone, hsome⟩ := readSection_eq h
      cases hread : Ini.readEntries (lines (c :: r) []) with
      | none =>
        rw [hnone (by rw [Ini.readSection, hread]; rfl)]
        obtain ⟨raw, hmem, hblank⟩ := readEntries_none hread
        exact iff_of_false (by simp) fun hall => hall raw hmem hblank
      | some es =>
        obtain ⟨front, hlines, hfront, hrest⟩ := readEntries_some hread
        obtain ⟨s₁, s₂, hs, hlines₂, hptr⟩ :=
          hsome _ _ (by rw [Ini.readSection, hread]; rfl)
        have hlines₂ : lines s₂ [] = es.2 := hlines₂
        rw [hs] at h
        have h₂ := h.move
        rw [hptr]
        simp only [bind_some, h₂.cell]
        by_cases hs₂ : s₂ = []
        · subst hs₂
          refine iff_of_true rfl fun raw hraw => ?_
          rw [hlines, ← hlines₂, show lines [] [] = [] from rfl, append_nil] at hraw
          exact hfront raw hraw
        · obtain ⟨raw, u, rfl, hraw, hu, hline, hne⟩ := exists_line hs₂
          have hzero₂ := headD_ne_zero h₂ hs₂
          have hheader : (Ini.prepLine raw).1.head? = some 91 := by
            refine hrest raw ?_
            rw [← hlines₂, hline]
            rfl
          obtain ⟨next, hnext⟩ := readHeader_eq h₂ hraw hu hheader
          have hshort : (u.drop 1).length < fuel := by
            have hlen := length_next hne
            have htotal := congrArg List.length hs
            rw [length_append] at htotal
            omega
          have hih := ih next (rest_next h₂) hshort
          rw [if_neg hzero₂, hnext, hlines, ← hlines₂, hline]
          simp only [bind_some]
          have hall : (∀ raw' ∈ front ++ raw :: lines (u.drop 1) [], ¬ BlankValue raw') ↔
              ∀ raw' ∈ lines (u.drop 1) [], ¬ BlankValue raw' := by
            refine ⟨fun hall raw' hraw' =>
              hall raw' (mem_append_right _ (mem_cons_of_mem _ hraw')), fun hall => ?_⟩
            intro raw' hraw'
            rcases mem_append.mp hraw' with hraw' | hraw'
            · exact hfront raw' hraw'
            · rcases mem_cons.mp hraw' with rfl | hraw'
              · exact not_blankValue_header hheader
              · exact hall raw' hraw'
          rw [hall, ← hih]
          cases readSections buf fuel next (ptr + s₁.length + (raw ++ u.take 1).length) <;> simp

/-! ### The encoding -/

theorem startsWith_append {mark : List UInt8} : ∀ {file : List UInt8} (slack : List UInt8),
    mark.length ≤ file.length →
    startsWith mark (file ++ slack) = startsWith mark file ∧ (startsWith mark file).isSome := by
  induction mark with
  | nil =>
    intro file slack _
    refine ⟨?_, ?_⟩ <;> simp [startsWith]
  | cons m mark ih =>
    intro file slack hlen
    cases file with
    | nil => exact absurd hlen (by simp)
    | cons b file =>
      obtain ⟨heq, hsome⟩ := ih slack (Nat.le_of_succ_le_succ hlen)
      rw [cons_append, startsWith, startsWith, heq]
      refine ⟨rfl, ?_⟩
      split
      · exact hsome
      · rfl

theorem looksUnicode_append {len : Nat} (slack : List UInt8) : ∀ {file : List UInt8} {pos : Nat}
    {looks : Bool × Bool}, pos + file.length = len →
    looksUnicode len pos looks (file ++ slack) = looksUnicode len pos looks file ∧
      (looksUnicode len pos looks file).isSome := by
  intro file
  induction file using List.twoStepInduction with
  | nil =>
    intro pos looks hpos
    rw [length_nil] at hpos
    have hend : ¬ pos + 1 < min len 16 := by omega
    refine ⟨?_, by simp [looksUnicode, hend]⟩
    rcases slack with - | ⟨a, - | ⟨b, slack⟩⟩ <;> simp [looksUnicode, hend]
  | singleton a =>
    intro pos looks hpos
    rw [length_singleton] at hpos
    have hend : ¬ pos + 1 < min len 16 := by omega
    refine ⟨?_, by simp [looksUnicode, hend]⟩
    rcases slack with - | ⟨b, slack⟩ <;> simp [looksUnicode, hend]
  | cons_cons a b file ih _ =>
    intro pos looks hpos
    rw [length_cons, length_cons] at hpos
    obtain ⟨heq, hsome⟩ := @ih (pos + 2) (looks.1 && b = 0, looks.2 && a = 0) (by omega)
    rw [cons_append, cons_append, looksUnicode, looksUnicode, heq]
    refine ⟨rfl, ?_⟩
    split
    · exact hsome
    · rfl

theorem hasMark_append (mark file slack : List UInt8) :
    hasMark mark (file ++ slack) file.length = hasMark mark file file.length ∧
      ∃ b, hasMark mark file file.length = some b ∧ (b = true → mark.length ≤ file.length) := by
  rw [hasMark, hasMark]
  by_cases hlen : mark.length ≤ file.length
  · obtain ⟨heq, hsome⟩ := startsWith_append slack hlen
    obtain ⟨b, hb⟩ := isSome_iff_exists.mp hsome
    rw [if_pos hlen, if_pos hlen]
    exact ⟨heq, b, hb, fun _ => hlen⟩
  · rw [if_neg hlen, if_neg hlen]
    exact ⟨rfl, false, rfl, fun h => by cases h⟩

theorem readBOM_append (file slack : List UInt8) :
    readBOM (file ++ slack) file.length = readBOM file file.length ∧
      ∃ r, readBOM file file.length = some r ∧ r.2 ≤ file.length := by
  obtain ⟨hlook, hlooked⟩ :=
    @looksUnicode_append file.length slack file 0 (true, true) (Nat.zero_add _)
  obtain ⟨looks, hlooks⟩ := isSome_iff_exists.mp hlooked
  obtain ⟨heq₁, utf8, h₁, hle₁⟩ := hasMark_append [0xEF, 0xBB, 0xBF] file slack
  obtain ⟨heq₂, utf16LE, h₂, hle₂⟩ := hasMark_append [0xFF, 0xFE] file slack
  obtain ⟨heq₃, utf16BE, h₃, hle₃⟩ := hasMark_append [0xFE, 0xFF] file slack
  rw [readBOM, readBOM, hlook, heq₁, heq₂, heq₃, h₁, h₂, h₃, hlooks]
  refine ⟨rfl, ?_⟩
  cases utf8 with
  | true => exact ⟨_, rfl, hle₁ rfl⟩
  | false =>
    cases utf16LE with
    | true => exact ⟨_, rfl, hle₂ rfl⟩
    | false =>
      cases utf16BE with
      | true => exact ⟨_, rfl, hle₃ rfl⟩
      | false =>
        obtain ⟨le, be⟩ := looks
        cases le <;> cases be <;> exact ⟨_, rfl, Nat.zero_le _⟩

/-! ### The text of a file -/

def swapPairs : List UInt8 → List UInt8
  | a :: b :: data => b :: a :: swapPairs data
  | data => data

def encodingOf (file : List UInt8) : Nat × Nat := (readBOM file file.length).getD (0, 0)

def textOf (multiByteToWideChar : List UInt8 → List WChar) (file : List UInt8) : List WChar :=
  let data := file.drop (encodingOf file).2
  cut (if (encodingOf file).1 = 1 then if data.length = 0 then [] else multiByteToWideChar data
    else if (encodingOf file).1 = 2 then toWide (swapPairs data)
    else toWide data)

theorem swapBytes_append {n : Nat} {slack : List UInt8} : ∀ {data : List UInt8} {i : Nat},
    i + data.length = n + 1 →
    ∃ rest, swapBytes n i (data ++ slack) = some (swapPairs data ++ rest) ∧
      rest.length = slack.length := by
  intro data
  induction data using List.twoStepInduction with
  | nil =>
    intro i hi
    rw [length_nil] at hi
    have hend : ¬ i < n := by omega
    refine ⟨slack, ?_, rfl⟩
    rcases slack with - | ⟨a, - | ⟨b, slack⟩⟩ <;> simp [swapBytes, swapPairs, hend]
  | singleton a =>
    intro i hi
    rw [length_singleton] at hi
    have hend : ¬ i < n := by omega
    refine ⟨slack, ?_, rfl⟩
    rcases slack with - | ⟨b, slack⟩ <;> simp [swapBytes, swapPairs, hend]
  | cons_cons a b data ih _ =>
    intro i hi
    rw [length_cons, length_cons] at hi
    obtain ⟨rest, hswap, hrest⟩ := @ih (i + 2) (by omega)
    refine ⟨rest, ?_, hrest⟩
    rw [cons_append, cons_append, swapBytes, if_pos (by omega), hswap]
    rfl

theorem swapBytes_none {n : Nat} : ∀ {data : List UInt8} {i : Nat}, i + data.length < n →
    swapBytes n i data = none := by
  intro data
  induction data using List.twoStepInduction with
  | nil => intro i hi; rw [swapBytes, if_pos (by simpa using hi)]; simp
  | singleton a =>
    intro i hi
    rw [swapBytes, if_pos (by omega)]
    simp
  | cons_cons a b data ih _ =>
    intro i hi
    rw [length_cons, length_cons] at hi
    rw [swapBytes, if_pos (by omega), @ih (i + 2) (by omega)]
    rfl

theorem length_swapPairs (data : List UInt8) : (swapPairs data).length = data.length := by
  induction data using List.twoStepInduction with
  | nil => rfl
  | singleton a => rfl
  | cons_cons a b data ih _ => simp [swapPairs, ih]

theorem length_toWide (data : List UInt8) : (toWide data).length = data.length / 2 := by
  induction data using List.twoStepInduction with
  | nil => rfl
  | singleton a => simp [toWide]
  | cons_cons a b data ih _ =>
    rw [toWide, length_cons, length_cons, length_cons, ih]
    omega

theorem toWide_append (data rest : List UInt8) :
    ∃ more, toWide (data ++ rest) = toWide data ++ more := by
  induction data using List.twoStepInduction with
  | nil => exact ⟨_, rfl⟩
  | singleton a => exact ⟨_, rfl⟩
  | cons_cons a b data ih _ =>
    obtain ⟨more, hmore⟩ := ih
    exact ⟨more, by simp [toWide, hmore]⟩

theorem terminate_append {chars more : List WChar} (h : more ≠ []) :
    ∃ buf, terminate (chars ++ more) chars.length = some buf ∧ Rest 0 buf 0 (cut chars) := by
  obtain ⟨c, more, rfl⟩ := exists_cons_of_ne_nil h
  refine ⟨chars ++ 0 :: more, ?_, ?_, ?_⟩
  · rw [terminate, if_pos (by simp), set_append_right _ _ le_rfl, Nat.sub_self]
    rfl
  · intro hmem
    simpa using mem_takeWhile_imp hmem
  rw [drop_zero]
  have hsplit : chars = cut chars ++ chars.dropWhile (· ≠ 0) :=
    takeWhile_append_dropWhile.symm
  have hnot := head?_dropWhile_not (· ≠ 0) chars
  cases hd : chars.dropWhile (· ≠ 0) with
  | nil =>
    rw [hd, append_nil] at hsplit
    exact ⟨more, by rw [← hsplit]⟩
  | cons x r =>
    rw [hd] at hsplit hnot
    have hx : x = 0 := by simpa using hnot
    exact ⟨r ++ 0 :: more, by
      conv_lhs => rw [hsplit, hx, append_assoc, cons_append]⟩

theorem terminate_toWide (data : List UInt8) {rest : List UInt8} (h : 2 ≤ rest.length) :
    ∃ buf, terminate (toWide (data ++ rest)) (data.length / 2) = some buf ∧
      Rest 0 buf 0 (cut (toWide data)) := by
  obtain ⟨more, hmore⟩ := toWide_append data rest
  have hlen := congrArg List.length hmore
  rw [length_append, length_toWide, length_toWide, length_append] at hlen
  have hne : more ≠ [] := fun hnil => by
    rw [hnil, length_nil] at hlen
    omega
  rw [hmore, ← length_toWide data]
  exact terminate_append hne

theorem decode_eq (multiByteToWideChar : List UInt8 → List WChar) (slack : Slack)
    {file : List UInt8} (hlen : file.length < 384 * 1024 * 1024) :
    ((encodingOf file).1 = 2 ∧ file.drop (encodingOf file).2 = [] →
      decode multiByteToWideChar (encodingOf file).1
        (file.drop (encodingOf file).2 ++ slack) (file.drop (encodingOf file).2).length = none) ∧
    (¬ ((encodingOf file).1 = 2 ∧ file.drop (encodingOf file).2 = []) →
      ∃ buf, decode multiByteToWideChar (encodingOf file).1
          (file.drop (encodingOf file).2 ++ slack) (file.drop (encodingOf file).2).length =
            some buf ∧
        Rest 0 buf 0 (textOf multiByteToWideChar file)) := by
  rw [decode, textOf]
  have hdata : (file.drop (encodingOf file).2).length ≤ file.length := by
    rw [length_drop]
    omega
  generalize file.drop (encodingOf file).2 = data at *
  have hslack := slack.2
  by_cases hutf8 : (encodingOf file).1 = 1
  · rw [if_pos hutf8, if_pos hutf8, take_left]
    refine ⟨fun h => absurd (hutf8.symm.trans h.1) (by decide), fun _ => ?_⟩
    exact terminate_append (by simp)
  rw [if_neg hutf8, if_neg hutf8]
  by_cases hbe : (encodingOf file).1 = 2
  · rw [if_pos hbe, if_pos hbe]
    refine ⟨fun h => ?_, fun h => ?_⟩
    · rw [h.2, nil_append, length_nil,
        swapBytes_none (by rw [hslack]; decide)]
      rfl
    · have hpos := length_pos_iff.mpr (fun hnil => h ⟨hbe, hnil⟩)
      have hbound : (data.length + 2 ^ 32 - 1) % 2 ^ 32 = data.length - 1 := by omega
      obtain ⟨rest, hswap, hrest⟩ :=
        @swapBytes_append (data.length - 1) slack data 0 (by omega)
      rw [hbound, hswap, ← length_swapPairs data]
      exact terminate_toWide _ (by rw [hrest, hslack]; decide)
  · rw [if_neg hbe, if_neg hbe]
    exact ⟨fun h => absurd h.1 hbe, fun _ => terminate_toWide _ (by rw [hslack]; decide)⟩

theorem prefix_of_startsWith {mark : List UInt8} : ∀ {data : List UInt8},
    startsWith mark data = some true → mark <+: data := by
  induction mark with
  | nil => intro data _; exact nil_prefix
  | cons m mark ih =>
    intro data h
    cases data with
    | nil => cases h
    | cons b data =>
      rw [startsWith] at h
      by_cases hb : b = m
      · rw [if_pos hb] at h
        rw [hb]
        exact (prefix_cons_inj m).mpr (ih h)
      · rw [if_neg hb] at h
        cases h

theorem readBOM_utf16BE {file : List UInt8} {len mark : Nat}
    (h : readBOM file len = some (2, mark)) :
    mark = 0 ∨ mark = 2 ∧ [0xFE, 0xFF] <+: file := by
  rw [readBOM] at h
  obtain ⟨utf8, -, h⟩ := bind_eq_some_iff.mp h
  cases utf8 with
  | true => cases h
  | false =>
    obtain ⟨utf16LE, -, h⟩ := bind_eq_some_iff.mp h
    cases utf16LE with
    | true => cases h
    | false =>
      obtain ⟨utf16BE, hBE, h⟩ := bind_eq_some_iff.mp h
      cases utf16BE with
      | true =>
        cases h
        rw [hasMark] at hBE
        split at hBE
        · exact .inr ⟨rfl, prefix_of_startsWith hBE⟩
        · cases hBE
      | false =>
        obtain ⟨looks, -, h⟩ := bind_eq_some_iff.mp h
        obtain ⟨le, be⟩ := looks
        cases le <;> cases be <;> cases h
        exact .inl rfl

theorem encodingOf_empty {file : List UInt8} (hne : file ≠ []) :
    (encodingOf file).1 = 2 ∧ file.drop (encodingOf file).2 = [] ↔ file = [0xFE, 0xFF] := by
  constructor
  · rintro ⟨hBE, hdrop⟩
    obtain ⟨-, ⟨encoding, mark⟩, hr, -⟩ := readBOM_append file []
    rw [encodingOf, hr] at hBE hdrop
    have hBE : encoding = 2 := hBE
    subst hBE
    rcases readBOM_utf16BE hr with rfl | ⟨rfl, rest, hfile⟩
    · exact absurd hdrop hne
    · have hrest : rest = [] := by
        rw [← hfile] at hdrop
        exact hdrop
      rw [← hfile, hrest]
      rfl
  · rintro rfl
    decide

/-- **For which files `LoadIni` goes through**: for those that are too long for it, and for all
others but the one that is just the mark of UTF-16 BE, in which no setting has a value of
nothing but white space that begins with a blank. -/
theorem loadIni_isSome_iff (multiByteToWideChar : List UInt8 → List WChar) (slack : Slack)
    (file : List UInt8) :
    (loadIni multiByteToWideChar slack file).isSome = true ↔
      384 * 1024 * 1024 ≤ file.length ∨ file ≠ [0xFE, 0xFF] ∧
        ∀ line ∈ lines (textOf multiByteToWideChar file) [], ¬ BlankValue line := by
  rw [loadIni]
  by_cases hlong : 384 * 1024 * 1024 ≤ file.length
  · rw [if_pos hlong]
    exact iff_of_true rfl (.inl hlong)
  rw [if_neg hlong, or_iff_right hlong]
  by_cases hnil : file = []
  · subst hnil
    refine iff_of_true rfl ⟨by decide, fun line hline => ?_⟩
    have htext : textOf multiByteToWideChar [] = [] := rfl
    cases hline
  rw [if_neg hnil]
  obtain ⟨happend, r, hr, hle⟩ := readBOM_append file slack
  have henc : encodingOf file = r := by rw [encodingOf, hr]; rfl
  have hdrop : (file ++ (slack : List UInt8)).drop r.2 = file.drop r.2 ++ slack :=
    drop_append_of_le_length hle
  have hlen : file.length - r.2 = (file.drop r.2).length := by rw [length_drop]
  obtain ⟨hnone, hsome⟩ := decode_eq multiByteToWideChar slack (Nat.lt_of_not_le hlong)
  rw [happend, hr]
  simp only [bind_eq_bind, bind_some]
  rw [hdrop, hlen, ← henc]
  have hempty := encodingOf_empty hnil
  by_cases hmark : file = [0xFE, 0xFF]
  · rw [hnone (hempty.mpr hmark)]
    exact iff_of_false (by simp) fun h => h.1 hmark
  · obtain ⟨buf, hdecode, hrest⟩ := hsome (fun h => hmark (hempty.mp h))
    have hshort := hrest.length_le
    have hsections := @readSections_isSome_iff buf buf.length 0 _ [] hrest (by omega)
    rw [hdecode, and_iff_right hmark, ← hsections]
    simp only [bind_some]
    cases readSections buf buf.length [] 0 <;> simp

/-- The constructor of a string throws for the line `a= `, and a file of the two bytes `FE FF` is
swapped far behind its buffer. -/
theorem loadIni_fails :
    loadIni (fun _ => []) ⟨List.replicate 128 0, List.length_replicate⟩
        [0xFF, 0xFE, 0x61, 0, 0x3D, 0, 0x20, 0, 0x0A, 0] = none ∧
      loadIni (fun _ => []) ⟨List.replicate 128 0, List.length_replicate⟩ [0xFE, 0xFF] = none := by
  decide +kernel

end Sandboxie.IniLoad
