import Sandboxie.Common.Text

/-!
# The ini file of the service

`CIniFile` of `common/ini.cpp`: the sections of `Sandboxie.ini` with their lines in order, the
edits of it, and the text that `SaveIni` writes.

A pointer into the text is left out: the text is cut into its lines first, as the reader never
goes from one line to the next but at a line feed.  The constructor of `std::wstring` throws
when it is given a negative length; the result is `none` there.
-/

namespace Sandboxie.Ini

open Text

inductive Status
  | success
  | invalidParameter
  | insufficientResources
  | unsuccessful
  | failed (code : Nat)
deriving DecidableEq

/-- `NT_SUCCESS` -/
def Status.ok : Status → Bool
  | .success => true
  | _ => false

/-- `SIniEntry`; a line without a name has it empty. -/
structure Entry where
  name : List WChar
  value : List WChar
deriving DecidableEq

/-- `SIniSection` -/
structure Section where
  name : List WChar
  entries : List Entry
deriving DecidableEq

structure CIniFile where
  encoding : Nat
  sections : List Section
deriving DecidableEq

def isBlank (c : WChar) : Bool := c = 32 || c = 9
def isSpace (c : WChar) : Bool := isBlank c || c = 13

def containsCRLF (s : List WChar) : Bool := s.any fun c => c = 13 || c = 10

/-- The pieces between line feeds; nothing comes after the last one. -/
def lines : List WChar → List WChar → List (List WChar)
  | [], [] => []
  | [], c :: line => [c :: line]
  | c :: rest, line => if c = 10 then line :: lines rest [] else lines rest (line ++ [c])

theorem lines_append {l : List WChar} (hl : 10 ∉ l) (line rest : List WChar) :
    lines (l ++ 10 :: rest) line = (line ++ l) :: lines rest [] := by
  induction l generalizing line with
  | nil => simp [lines]
  | cons c l ih =>
    have hc : c ≠ 10 := fun h => hl (h ▸ List.mem_cons_self)
    rw [List.cons_append, lines, if_neg hc, ih fun h => hl (List.mem_cons_of_mem c h)]
    simp

theorem lines_last {l : List WChar} (hl : 10 ∉ l) (line : List WChar) :
    lines l line = if line ++ l = [] then [] else [line ++ l] := by
  induction l generalizing line with
  | nil => cases line <;> simp [lines]
  | cons c l ih =>
    have hc : c ≠ 10 := fun h => hl (h ▸ List.mem_cons_self)
    rw [lines, if_neg hc, ih fun h => hl (List.mem_cons_of_mem c h)]
    simp

/-! ### Reading -/

/-- `PrepLine`: a line without the white space in front of it, and without that behind it. -/
def prepLine (raw : List WChar) : List WChar × List WChar :=
  let line := raw.dropWhile isSpace
  (line, (line.reverse.dropWhile isSpace).reverse)

/-- `ReadEntry`, with the line up to its end, and up to the white space behind it. -/
def readEntry (line content : List WChar) : Option Entry :=
  if content.head? = some 35 || !content.contains 61 then some ⟨[], content⟩
  else
    let name := ((content.takeWhile (· ≠ 61)).reverse.dropWhile isBlank).reverse
    let value := ((line.dropWhile (· ≠ 61)).drop 1).dropWhile isBlank
    -- the blanks behind `=` are skipped also where they are behind the end
    if line.length - value.length ≤ content.length then
      some ⟨name, content.drop (line.length - value.length)⟩
    else none

/-- The loop of `ReadSection`: the entries up to a header, and the lines from there on. -/
def readEntries : List (List WChar) → Option (List Entry × List (List WChar))
  | [] => some ([], [])
  | raw :: rest =>
    if (prepLine raw).1.head? = some 91 then some ([], raw :: rest)
    else
      match readEntry (prepLine raw).1 (prepLine raw).2 with
      | none => none
      | some entry => (readEntries rest).map fun r => (entry :: r.1, r.2)

/-- `ReadSection` drops the empty lines at the end. -/
def readSection (text : List (List WChar)) : Option (List Entry × List (List WChar)) :=
  (readEntries text).map fun r =>
    ((r.1.reverse.dropWhile fun e => e.name = [] && e.value = []).reverse, r.2)

/-! ### Edits -/

section Names

variable (towlower : WChar → WChar)

def Section.isNamed (name : List WChar) (sec : Section) : Bool := sameNoCase towlower sec.name name

def Entry.isNamed (name : List WChar) (entry : Entry) : Bool := sameNoCase towlower entry.name name

/-- `GetSection`, where it can add the section. -/
def getSection (ini : CIniFile) (section_ : List WChar) : CIniFile :=
  if ini.sections.any (Section.isNamed towlower section_) then ini
  else { ini with sections := ini.sections ++ [⟨section_, []⟩] }

/-- The entries of the first section with a name are changed. -/
def changeEntries (section_ : List WChar) (f : List Entry → List Entry) :
    List Section → List Section
  | [] => []
  | sec :: rest =>
    if sec.isNamed towlower section_ then { sec with entries := f sec.entries } :: rest
    else sec :: changeEntries section_ f rest

def CIniFile.change (ini : CIniFile) (section_ : List WChar) (f : List Entry → List Entry) :
    CIniFile :=
  { ini with sections := changeEntries towlower section_ f ini.sections }

/-- New entries go behind the last one with the name, or to the end. -/
def insertLast (setting : List WChar) (new : List Entry) (entries : List Entry) : List Entry :=
  let behind := (entries.reverse.takeWhile fun e => !e.isNamed towlower setting).reverse
  if behind.length = entries.length then entries ++ new
  else entries.take (entries.length - behind.length) ++ new ++ behind

/-- New entries go in front of the first one with the name, or to the end. -/
def insertFirst (setting : List WChar) (new : List Entry) (entries : List Entry) : List Entry :=
  let before := entries.takeWhile fun e => !e.isNamed towlower setting
  before ++ new ++ entries.drop before.length

def confLineLen : Nat := 2000

/-- The entries of `SetValue`, one for each line of the value. -/
def newEntries (setting value : List WChar) : List Entry :=
  (lines value []).map fun line => ⟨setting, line.take confLineLen⟩

/-- `SetValue` takes the old entries out, and puts the new ones where the last of them was. -/
def replaceEntries (setting : List WChar) (new entries : List Entry) : List Entry :=
  let behind := (entries.reverse.takeWhile fun e => !e.isNamed towlower setting).reverse
  if behind.length = entries.length then entries ++ new
  else
    (entries.take (entries.length - behind.length)).filter (fun e => !e.isNamed towlower setting) ++
      new ++ behind

/-- `SetValue`; there is no value when its length is zero. -/
def setValue (ini : CIniFile) (section_ setting : List WChar) (value : Option (List WChar)) :
    Option (CIniFile × Status) :=
  if containsCRLF setting then some (ini, .invalidParameter)
  else
    let ini := getSection towlower ini section_
    match value with
    | none => some (ini.change towlower section_ (replaceEntries towlower setting []), .success)
    | some v =>
      if setting = [] then
        -- the text of a whole section, which must not have a header
        match readSection (lines v []) with
        | none => none
        | some (entries, []) => some (ini.change towlower section_ fun _ => entries, .success)
        | some (_, _ :: _) => some (ini, .invalidParameter)
      else
        some (ini.change towlower section_ (replaceEntries towlower setting (newEntries setting v)),
          .success)

def addValue (ini : CIniFile) (section_ setting value : List WChar) (insert : Bool) :
    CIniFile × Status :=
  if containsCRLF setting || containsCRLF value then (ini, .invalidParameter)
  else
    let add := if insert then insertFirst towlower setting else insertLast towlower setting
    ((getSection towlower ini section_).change towlower section_ (add [⟨setting, value⟩]), .success)

def removeValue (ini : CIniFile) (section_ setting value : List WChar) : CIniFile × Status :=
  (ini.change towlower section_ fun entries => entries.filter fun e =>
    !(e.isNamed towlower setting && (value = [] || sameNoCase towlower e.value value)), .success)

def removeSection (ini : CIniFile) (section_ : List WChar) : CIniFile × Status :=
  ({ ini with sections := ini.sections.eraseP (Section.isNamed towlower section_) }, .success)

end Names

/-! ### Writing -/

def Entry.text (entry : Entry) : List WChar :=
  (if entry.value = [] then []
    else (if entry.name = [] then [] else entry.name ++ [61]) ++ entry.value) ++ [13, 10]

def Section.text (sec : Section) : List WChar :=
  (if sec.name = [] then [] else [91] ++ sec.name ++ [93, 13, 10]) ++
    sec.entries.flatMap Entry.text ++ [13, 10]

/-- The text that `SaveIni` builds. -/
def CIniFile.text (ini : CIniFile) : List WChar := ini.sections.flatMap Section.text

/-- The bytes that `SaveIni` writes, with the mark of the encoding; `utf8` is
`WideCharToMultiByte`. -/
def CIniFile.bytes (utf8 : List WChar → List Nat) (ini : CIniFile) : List Nat :=
  if ini.encoding = 1 then [0xEF, 0xBB, 0xBF] ++ utf8 (cut ini.text)
  else [0xFF, 0xFE] ++ (cut ini.text).flatMap fun c => [c % 256, c / 256]

end Sandboxie.Ini
