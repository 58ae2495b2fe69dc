import Sandboxie.Common.Pattern
import Sandboxie.Dll.MergeCache
import Sandboxie.Lib.Cells
import Sandboxie.Lib.Layout

/-!
# The listing of a directory that is made up

`File_MergeDummy` of `core/dll/file_dir.c`: for a directory that is not readable itself, a list of
the names that lead on to readable paths.  The names are first put one behind the other into an
area of 64 KB, and from there into a sorted list.

Memory is in units of two bytes, as all offsets are even, and that of a new pool is zero.  A place
in the code that says `FileName[FileNameLength]` counts units with a number of bytes.
-/

namespace Sandboxie.MergeDummy

open Cells Text MergeCache

structure Source where
  text : List WChar
  noNul : 0 ∉ text
  short : text.length < 2 ^ 31

/-- `FILE_NETWORK_OPEN_INFORMATION` -/
structure NetworkOpenInformation where
  creationTime : UInt64
  lastAccessTime : UInt64
  lastWriteTime : UInt64
  changeTime : UInt64
  allocationSize : UInt64
  endOfFile : UInt64
  fileAttributes : UInt32
deriving DecidableEq

/-- What the listing is made from: `mask` is `Pattern_Match` with the file mask, of a string and a
length that may be less than that of the string, and `query` is
`File_QueryFullAttributesDirectoryFile` where it succeeds. -/
structure Request where
  truePath : List WChar
  mask : Option (List WChar → Nat → Bool)
  sources : List Source
  query : List WChar → Option NetworkOpenInformation

/-! ### The components -/

def truePathLen (truePath : List WChar) : Nat :=
  if 1 < truePath.length ∧ truePath.getLast? = some Pattern.backslash then truePath.length - 1
  else truePath.length

def afterPath (towlower : WChar → WChar) (truePath patstr : List WChar) : Option (List WChar) :=
  let len := truePathLen truePath
  if sameNoCase towlower (patstr.take len) (truePath.take len) = true ∧
      patstr[len]? = some Pattern.backslash then
    some (patstr.drop (len + 1))
  else none

/-- `name_len`: up to a backslash, or up to a star where there is none. -/
def nameLen (ptr : List WChar) : Nat :=
  if Pattern.backslash ∈ ptr then (ptr.takeWhile (· ≠ Pattern.backslash)).length
  else (ptr.takeWhile (· ≠ Pattern.star)).length

def fakePath (truePath name : List WChar) : List WChar :=
  truePath.take (truePathLen truePath) ++ Pattern.backslash :: name

/-! ### The areas -/

def ofU32 (n : Nat) : List WChar := [n % 2 ^ 16, n / 2 ^ 16 % 2 ^ 16]

def ofU64 (n : UInt64) : List WChar := ofU32 n.toNat ++ ofU32 (n.toNat / 2 ^ 32)

def u32 (m : List WChar) (off : Nat) : Nat := m.getD off 0 + 2 ^ 16 * m.getD (off + 1) 0

/-- The areas, `info_ptr` and `PrevEntry`. -/
structure State where
  infoArea : List WChar
  testBuf : List WChar
  infoPtr : Nat
  prevEntry : Option Nat

/-- `INFO_AREA_LEN` bytes, and `0x1000` bytes for the test of the mask. -/
def start : State := ⟨List.replicate 0x8000 0, List.replicate 0x800 0, 0, none⟩

def wcslwr (towlower : WChar → WChar) (buf : List WChar) : Option (List WChar) :=
  mapToZero (· == 0) towlower buf

def string (buf : List WChar) : List WChar := buf.takeWhile (· ≠ 0)

/-- The test of the mask: the name is copied with the character behind it, and what was in the
buffer behind that stays. -/
def testMask (towlower : WChar → WChar) (mask : List WChar → Nat → Bool)
    (testBuf ptr : List WChar) : Option (Bool × List WChar) :=
  (store testBuf 0 ((ptr ++ [0]).take (nameLen ptr + 1))).bind fun buf =>
    (wcslwr towlower buf).map fun buf => (mask (string buf) (nameLen ptr), buf)

/-- `NextEntryOffset` before its alignment. -/
def entrySize (nameLength : Nat) : Nat := 112 + 2 * nameLength + 2 + 16

/-- `NextEntryOffset`, in units. -/
def stride (nameLength : Nat) : Nat := Layout.alignUp 8 (entrySize nameLength) / 2

/-- The stores that make an entry at a place of the area, in their order. -/
def entryStores (p : Nat) (name : List WChar) (info : NetworkOpenInformation) :
    List (Nat × List WChar) :=
  [(p + 30, ofU32 (2 * name.length)), (p + 52, name), (p + 52 + 2 * name.length, [0]),
    (p + 4, ofU64 info.creationTime), (p + 8, ofU64 info.lastAccessTime),
    (p + 12, ofU64 info.lastWriteTime), (p + 16, ofU64 info.changeTime),
    (p + 24, ofU64 info.allocationSize), (p + 20, ofU64 info.endOfFile),
    (p + 28, ofU32 info.fileAttributes.toNat), (p + 48, ofU64 0xFFFFFFFFFFFFFFFF),
    (p, ofU32 (entrySize name.length)), (p, ofU32 (2 * stride name.length))]

def addEntry (s : State) (name : List WChar) (info : NetworkOpenInformation) : Option State :=
  (storeAll s.infoArea (entryStores s.infoPtr name info)).map fun area =>
    { s with
      infoArea := area
      infoPtr := s.infoPtr + stride name.length
      prevEntry := some s.infoPtr }

def matchMask (towlower : WChar → WChar) (mask : Option (List WChar → Nat → Bool))
    (testBuf ptr : List WChar) : Option (Bool × List WChar) :=
  match mask with
  | none => some (true, testBuf)
  | some m => testMask towlower m testBuf ptr

def addSource (towlower : WChar → WChar) (r : Request) (s : State) (src : Source) :
    Option State :=
  match afterPath towlower r.truePath src.text with
  | none => some s
  | some ptr =>
    (matchMask towlower r.mask s.testBuf ptr).bind fun tested =>
      let s := { s with testBuf := tested.2 }
      if tested.1 then
        match r.query (fakePath r.truePath (ptr.take (nameLen ptr))) with
        | none => some s
        | some info => addEntry s (ptr.take (nameLen ptr)) info
      else some s

def addSources (towlower : WChar → WChar) (r : Request) : List Source → State → Option State
  | [], s => some s
  | src :: rest, s => (addSource towlower r s src).bind (addSources towlower r rest)

/-! ### The list -/

/-- A `FILE_MERGE_CACHE_FILE` with the entry at a place of the area: the block has 40 bytes in
front of the entry, and `info` is the block. -/
def cacheFile (area : List WChar) (p : Nat) : Option (Entry (List WChar)) :=
  let length := u32 area (p + 30)
  (storeAll (List.replicate ((152 + length) / 2) 0)
      [(20, (area.drop p).take ((110 + length) / 2)), (20, ofU32 0)]).map fun block =>
    { name := (block.drop 72).take (length % 2 ^ 16 / 2), fileId := 0xFFFFFFFFFFFFFFFF,
      info := block }

/-- The walk to the place of an entry; one with a name that is there is left out. -/
def insertFile (upcase : WChar → WChar) (e : Entry (List WChar))
    (cache : List (Entry (List WChar))) : List (Entry (List WChar)) :=
  (insertEntry upcase e cache).getD cache

def listEntries (upcase : WChar → WChar) (area : List WChar) :
    Nat → Nat → List (Entry (List WChar)) → Option (List (Entry (List WChar)))
  | 0, _, _ => none
  | fuel + 1, p, cache =>
    (cacheFile area p).bind fun e =>
      if u32 area p = 0 then some (insertFile upcase e cache)
      else listEntries upcase area fuel (p + u32 area p / 2) (insertFile upcase e cache)

/-- `File_MergeDummy`: the list, which is empty with `STATUS_NO_MORE_ENTRIES`; nothing where a
store leaves its area. -/
def mergeDummy (towlower upcase : WChar → WChar) (r : Request) :
    Option (List (Entry (List WChar))) :=
  (addSources towlower r r.sources start).bind fun s =>
    match s.prevEntry with
    | none => some []
    | some prev =>
      (store s.infoArea prev (ofU32 0)).bind fun area =>
        listEntries upcase area r.sources.length 0 []

/-! ### What is meant -/

/-- The pattern goes on from the true path with a name: up to the next backslash, or up to the
first star where no backslash comes. -/
def Continues (towlower : WChar → WChar) (truePath patstr name : List WChar) : Prop :=
  ∃ pre rest, patstr = pre ++ Pattern.backslash :: (name ++ rest) ∧
    sameNoCase towlower pre (truePath.take (truePathLen truePath)) = true ∧
      Pattern.backslash ∉ name ∧ (rest.head? = some Pattern.backslash ∨
        (Pattern.backslash ∉ rest ∧ Pattern.star ∉ name ∧
          (rest = [] ∨ rest.head? = some Pattern.star)))

/-- A name that the listing is to have: a component that goes on from the true path in a pattern,
fits the mask, and exists. -/
structure Wanted (towlower : WChar → WChar) (r : Request) (name : List WChar) : Prop where
  ne_nil : name ≠ []
  leads : ∃ src ∈ r.sources, Continues towlower r.truePath src.text name
  fits : ∀ m ∈ r.mask, m (name.map towlower) name.length = true
  there : (r.query (fakePath r.truePath name)).isSome = true

/-- Every store is in its area, and the list is sorted, has no name twice, and has the names that
are wanted and no others. -/
def Listed (towlower upcase : WChar → WChar) (r : Request) : Prop :=
  ∃ l, mergeDummy towlower upcase r = some l ∧
    (l.Pairwise fun a b => key upcase a < key upcase b) ∧ (∀ e ∈ l, Wanted towlower r e.name) ∧
      ∀ name, Wanted towlower r name → ∃ e ∈ l, key upcase e = name.map upcase

/-! ### When that is so -/

def lowered (towlower : WChar → WChar) (buf : List WChar) : List WChar :=
  (string buf).map towlower ++ buf.dropWhile (· ≠ 0)

/-- The buffer at the test of a component: behind the component is the character that ends it, and
then what the components in front of it have left there. -/
def tested (towlower : WChar → WChar) (buf ptr : List WChar) : List WChar :=
  lowered towlower (splice buf 0 ((ptr ++ [0]).take (nameLen ptr + 1)))

/-- What the mask says of a component in this buffer, and what it leaves there. -/
def judged (towlower : WChar → WChar) (mask : Option (List WChar → Nat → Bool))
    (buf ptr : List WChar) : Bool × List WChar :=
  match mask with
  | none => (true, buf)
  | some m => (m (string (tested towlower buf ptr)) (nameLen ptr), tested towlower buf ptr)

/-- With the mask `*b*` and `xxb` in the buffer, `a` of `a\\c` is let in. -/
example : (judged id (some fun s _ => s.contains 'b'.toNat) (wide ['x', 'x', 'b', '\x00'])
    (wide ['a', '\\', 'c'])).1 = true := by decide

/-- The names that the mask lets in, in their order. -/
def dummies (towlower : WChar → WChar) (r : Request) : List WChar → List Source →
    List (List WChar)
  | _, [] => []
  | buf, src :: rest =>
    match afterPath towlower r.truePath src.text with
    | none => dummies towlower r buf rest
    | some ptr =>
      let name := ptr.take (nameLen ptr)
      if (judged towlower r.mask buf ptr).1 = true ∧
          (r.query (fakePath r.truePath name)).isSome = true then
        name :: dummies towlower r (judged towlower r.mask buf ptr).2 rest
      else dummies towlower r (judged towlower r.mask buf ptr).2 rest

/-- The names that are put into the area. -/
def letIn (towlower : WChar → WChar) (r : Request) : List (List WChar) :=
  dummies towlower r start.testBuf r.sources

/-- With a mask, each component has less than 2047 characters, or it has 2047 and the pattern ends
with it. -/
def TestFits (towlower : WChar → WChar) (r : Request) : Prop :=
  r.mask ≠ none → ∀ src ∈ r.sources, ∀ ptr ∈ afterPath towlower r.truePath src.text,
    nameLen ptr < 2047 ∨ (nameLen ptr = 2047 ∧ ptr.length = 2047)

/-- Behind the entries in front of it there is room for each name twice, in units of two bytes,
and for a zero. -/
def AreaFits (names : List (List WChar)) : Prop :=
  ∀ before name behind, names = before ++ name :: behind →
    (before.map fun n => stride n.length).sum + 52 + 2 * name.length + 1 ≤ 0x8000

/-- What is left in the buffer does not mislead the mask: a name that is let in as the first one of
its letters fits by itself, and for a name that is wanted one of the same letters is let in. -/
structure JudgedRight (towlower upcase : WChar → WChar) (r : Request) : Prop where
  fits : ∀ name, ((letIn towlower r).find? fun n => n.map upcase = name.map upcase) = some name →
    ∀ m ∈ r.mask, m (name.map towlower) name.length = true
  wanted : ∀ name, Wanted towlower r name →
    ∃ n ∈ letIn towlower r, n.map upcase = name.map upcase

end Sandboxie.MergeDummy
