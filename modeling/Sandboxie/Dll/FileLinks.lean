import Sandboxie.Common.Text

/-!
# Drives and links in front of a path

The tests of `core/dll/file_link.c` for the drives, the volumes and the permanent links that a
path begins with.  Each of them compares a number of characters, and looks at the one behind them,
so that a path of `\Device\HarddiskVolume10` is not taken for one of `\Device\HarddiskVolume1`.

The texts are strings, and each is handed over with its length.
-/

namespace Sandboxie.FileLinks

open Text List

structure Name where
  chars : List WChar
  zero_notMem : 0 ∉ chars
deriving DecidableEq

def Name.len (s : Name) : Nat := s.chars.length

/-- `FILE_DRIVE` -/
structure Drive where
  letter : WChar
  path : Name

/-- `FILE_GUID` -/
structure Guid where
  guid : List WChar
  path : Name

/-- `FILE_LINK`; `isWow64` says that it is `File_Wow64FileLink`, which a 64-bit program has not. -/
structure Link where
  src : Name
  dst : Name
  isWow64 : Bool
deriving DecidableEq

def backslash : WChar := 92

def charAt (s : List WChar) (i : Nat) : WChar := s.getD i 0

/-! ### The tests -/

section Tests

variable (towlower : WChar → WChar)

/-- An entry is as long as the path at most, a component of the path ends behind it, and
`_wcsnicmp` finds no difference. -/
def testEntry (path : List WChar) (pathLen : Nat) (entry : List WChar) : Bool :=
  decide (pathLen ≥ entry.length) &&
    (charAt path entry.length == backslash || charAt path entry.length == 0) &&
    sameNoCase towlower (path.take entry.length) entry

/-- `File_GetDriveForPath`, over the drives with a letter. -/
def getDriveForPath (drives : List (Option Drive)) (path : List WChar) (pathLen : Nat) :
    Option Drive :=
  (drives.filterMap id).find? fun drive => testEntry towlower path pathLen drive.path.chars

/-- `File_GetGuidForPath` -/
def getGuidForPath (guids : List Guid) (path : List WChar) (pathLen : Nat) : Option Guid :=
  guids.find? fun guid => testEntry towlower path pathLen guid.path.chars

/-- `File_FindPermLinksForMatchPath` -/
def findPermLinksForMatchPath (links : List Link) (name : List WChar) (nameLen : Nat) :
    Option Link :=
  links.find? fun link => !link.isWow64 && testEntry towlower name nameLen link.dst.chars

/-- The link that `File_FixPermLinksForTempLink` replaces next. -/
def nextPermLink (links : List Link) (name : List WChar) (nameLen maxLen : Nat) : Option Link :=
  links.find? fun link => !link.isWow64 && testEntry towlower name nameLen link.src.chars &&
    decide (link.dst.len + nameLen - link.src.len ≤ maxLen)

/-- `File_RemovePermLinks`: what stays in the list.  The path is the one of the device that is
gone, and the links are looked for below it. -/
def removePermLinks (links : List Link) (path : List WChar) : List Link :=
  links.filter fun link => !testEntry towlower link.src.chars link.src.len path

/-- `File_GetDriveAndLinkForPath`; the character that is looked at is the one behind the path. -/
def getDriveAndLinkForPath (drives : List (Option Drive)) (links : List Link) (path : List WChar)
    (pathLen : Nat) : Option Drive × Option Link :=
  (getDriveForPath towlower drives path pathLen, links.find? fun link =>
    !link.isWow64 && decide (pathLen ≥ link.src.len) &&
      (charAt path pathLen == backslash || charAt path pathLen == 0) &&
      sameNoCase towlower (path.take link.src.len) link.src.chars)

end Tests

/-! ### Whole components -/

/-- An entry is a path, ignoring case, or its first components. -/
def Leads (towlower : WChar → WChar) (entry path : Name) : Prop :=
  ∃ front rest, path.chars = front ++ rest ∧ sameNoCase towlower front entry.chars = true ∧
    (rest = [] ∨ rest.head? = some backslash)

variable {towlower : WChar → WChar}

theorem length_of_sameNoCase {s t : List WChar} (h : sameNoCase towlower s t = true) :
    s.length = t.length := by
  have hlen := congrArg List.length (beq_iff_eq.mp h)
  rwa [length_map, length_map] at hlen

theorem charAt_boundary (s : Name) (i : Nat) :
    (charAt s.chars i == backslash || charAt s.chars i == 0) = true ↔
      s.chars.drop i = [] ∨ (s.chars.drop i).head? = some backslash := by
  rw [Bool.or_eq_true, beq_iff_eq, beq_iff_eq, head?_drop, drop_eq_nil_iff]
  unfold charAt
  rw [getD_eq_getElem?_getD]
  by_cases hi : i < s.chars.length
  · have hzero : s.chars[i] ≠ 0 := fun h => s.zero_notMem (h ▸ getElem_mem hi)
    rw [getElem?_eq_getElem hi, Option.getD_some, Option.some.injEq]
    refine ⟨fun h => .inr (h.resolve_right hzero), ?_⟩
    rintro (h | h)
    · omega
    · exact .inl h
  · rw [getElem?_eq_none (by omega)]
    exact iff_of_true (.inr rfl) (.inl (by omega))

/-- **The test is for whole components.** -/
theorem testEntry_iff (path entry : Name) :
    testEntry towlower path.chars path.len entry.chars = true ↔ Leads towlower entry path := by
  unfold testEntry
  rw [Bool.and_eq_true, Bool.and_eq_true, charAt_boundary, decide_eq_true_iff]
  constructor
  · rintro ⟨⟨-, hbehind⟩, hsame⟩
    exact ⟨path.chars.take entry.chars.length, path.chars.drop entry.chars.length,
      (take_append_drop _ _).symm, hsame, hbehind⟩
  · rintro ⟨front, rest, hpath, hsame, hbehind⟩
    have hlen := length_of_sameNoCase hsame
    rw [hpath, ← hlen, take_left, drop_left]
    refine ⟨⟨?_, hbehind⟩, hsame⟩
    show path.chars.length ≥ front.length
    rw [hpath, length_append]
    omega

instance (entry path : Name) : Decidable (Leads towlower entry path) :=
  decidable_of_iff _ (testEntry_iff path entry)

theorem testEntry_eq (path entry : Name) :
    testEntry towlower path.chars path.len entry.chars = decide (Leads towlower entry path) := by
  rw [Bool.eq_iff_iff, testEntry_iff, decide_eq_true_iff]

/-- **Entries match by whole components.**  The drives, the volumes and the links are looked for
at the start of the path; what is removed with a device are the links at its path or below it.
The link for System32 is left out. -/
theorem entries_lead (towlower : WChar → WChar) (drives : List (Option Drive)) (guids : List Guid)
    (links : List Link) (path : Name) (maxLen : Nat) :
    getDriveForPath towlower drives path.chars path.len =
        (drives.filterMap id).find? (fun drive => decide (Leads towlower drive.path path)) ∧
      getGuidForPath towlower guids path.chars path.len =
        guids.find? (fun guid => decide (Leads towlower guid.path path)) ∧
      findPermLinksForMatchPath towlower links path.chars path.len =
        links.find? (fun link => !link.isWow64 && decide (Leads towlower link.dst path)) ∧
      nextPermLink towlower links path.chars path.len maxLen =
        links.find? (fun link => !link.isWow64 && decide (Leads towlower link.src path) &&
          decide (link.dst.len + path.len - link.src.len ≤ maxLen)) ∧
      removePermLinks towlower links path.chars =
        links.filter (fun link => !decide (Leads towlower path link.src)) := by
  unfold getDriveForPath getGuidForPath findPermLinksForMatchPath nextPermLink removePermLinks
  simp only [testEntry_eq, and_self]

def volume : Name := ⟨wide "\\Device\\HarddiskVolume1".toList, by decide⟩

def mountPoint : Link :=
  ⟨⟨wide "\\Device\\HarddiskVolume1\\mnt".toList, by decide⟩,
    ⟨wide "\\Device\\HarddiskVolume2".toList, by decide⟩, false⟩

/-- The link goes with the device, and its path is not in front of that of the device. -/
theorem removePermLinks_below : ¬ ∀ (links : List Link) (path : Name),
    removePermLinks asciiLower links path.chars =
      links.filter fun link => !decide (Leads asciiLower link.src path) := by
  intro h
  have hremoved : removePermLinks asciiLower [mountPoint] volume.chars = [] := by decide +kernel
  have hkept : [mountPoint].filter (fun link => !decide (Leads asciiLower link.src volume)) =
      [mountPoint] := by decide +kernel
  rw [h, hkept] at hremoved
  cases hremoved

end Sandboxie.FileLinks
