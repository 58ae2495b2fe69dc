import Sandboxie.Common.Text
import Sandboxie.Lib.Forest

/-!
# The tree of deleted and relocated paths

The tree of `file_del.c`, which a process of a box keeps of the paths that are deleted or
renamed there: `File_SetPathFlags_internal`, `File_GetPathFlags_internal`,
`File_MarkDeleted_internal` and `File_SetRelocation_internal`.  `key_del.c` keeps its registry
paths in such a tree too.

A `LIST` of nodes is a forest.  A node that is found stays the first one of its name while
others are added behind it, so it is told by its path where the code keeps a pointer to it.
-/

namespace Sandboxie.PathTree

open Text

def fileDeletedFlag : BitVec 32 := 0x0001
def fileRelocationFlag : BitVec 32 := 0x0002
def filePathDeletedFlag : BitVec 32 := 0x00010000
def filePathRelocatedFlag : BitVec 32 := 0x00020000
def fileChildrenDeletedFlag : BitVec 32 := 0x00040000
def fileDeletedMask : BitVec 32 := fileDeletedFlag ||| filePathDeletedFlag

/-- What a `PATH_NODE` says about its path. -/
@[ext]
structure Mark where
  flags : BitVec 32
  relocation : Option (List WChar)
deriving DecidableEq

def Mark.none : Mark := ⟨0, Option.none⟩

/-- `FILE_IS_DELETED` -/
def Mark.deleted (m : Mark) : Bool := m.flags &&& fileDeletedFlag ≠ 0

/-- The node has `FILE_RELOCATION_FLAG`. -/
def Mark.relocated (m : Mark) : Bool := m.flags &&& fileRelocationFlag ≠ 0

/-- The mark without its relocation: `File_SetRelocation_internal` takes that over. -/
def Mark.release (m : Mark) : Mark :=
  if m.relocated then ⟨m.flags &&& ~~~fileRelocationFlag, Option.none⟩ else m

/-- The nodes of a level, `LIST` of `PATH_NODE`. -/
abbrev PathNodes := Forest (List WChar) Mark

/-! ### Paths -/

/-- The names between the backslashes, each with what is behind it; a name that has begun is
`name`. -/
def segmentsFrom : List WChar → List WChar → List (List WChar × List WChar)
  | [], [] => []
  | name, [] => [(name, [])]
  | name, c :: rest =>
    if c = 92 then
      if name = [] then segmentsFrom [] rest else (name, c :: rest) :: segmentsFrom [] rest
    else segmentsFrom (name ++ [c]) rest

/-- The names that the loops over a path come to, each with what is behind it. -/
def segments (path : List WChar) : List (List WChar × List WChar) := segmentsFrom [] path

def names (path : List WChar) : List (List WChar) := (segments path).map Prod.fst

/-- The path has a last name, with no backslash behind it. -/
def hasLast (path : List WChar) : Bool :=
  match (segments path).getLast? with
  | some (_, []) => true
  | _ => false

section Fold

variable (towlower : WChar → WChar)

/-- `File_FindPathBranche_internal`, where it cannot add -/
def findPathBranche (root : PathNodes) (path : List WChar) : Option (Mark × PathNodes) :=
  if hasLast path then root.find (List.map towlower) (names path) else none

/-- A change of the last node of a path; nodes that are missing are added. -/
def changeLast (f : Mark → Mark) (root : PathNodes) (path : List WChar) : PathNodes :=
  root.update (List.map towlower) Mark.none (if hasLast path then f else id) (names path)

/-- What `File_SetPathFlags_internal` does to the last node. -/
def Mark.set (setFlags clrFlags : BitVec 32) (relocation : Option (List WChar)) (m : Mark) :
    Mark where
  flags := (m.flags ||| setFlags) &&& ~~~clrFlags
  relocation :=
    if (clrFlags &&& fileRelocationFlag) ≠ 0 ∨ (setFlags &&& fileRelocationFlag) ≠ 0 then
      if (setFlags &&& fileRelocationFlag) ≠ 0 then relocation.filter (· ≠ []) else Option.none
    else m.relocation

/-- `File_SetPathFlags_internal` -/
def setPathFlags (root : PathNodes) (path : List WChar) (setFlags clrFlags : BitVec 32)
    (relocation : Option (List WChar)) : PathNodes :=
  changeLast towlower (Mark.set setFlags clrFlags relocation) root path

/-- The loop over the children: one of them has all the flags. -/
def hasChildWith (flags : BitVec 32) : PathNodes → Bool
  | .nil => false
  | .node _ mark _ next => mark.flags &&& flags = flags || hasChildWith flags next

def lastFlags (flags : BitVec 32) (mark : Mark) : BitVec 32 :=
  (flags ||| if mark.relocated then fileRelocationFlag else 0) |||
    if mark.deleted then fileDeletedFlag else 0

/-- The flags after a node on the way; a relocation resets them. -/
def passFlags (flags : BitVec 32) (mark : Mark) : BitVec 32 :=
  if mark.relocated then filePathRelocatedFlag
  else if mark.deleted then flags ||| filePathDeletedFlag
  else flags

/-- The last relocation so far, with what is behind the name. -/
def lastRelocation (relocation : Option (List WChar)) (mark : Mark) (next : List WChar) :
    Option (List WChar) :=
  if mark.relocated then mark.relocation.map (· ++ next) else relocation

/-- The loop of `File_GetPathFlags_internal`. -/
def walk (checkChildren : Bool) : PathNodes → List (List WChar × List WChar) → BitVec 32 →
    Option (List WChar) → BitVec 32 × Option (List WChar)
  | _, [], flags, relocation => (flags, relocation)
  | tree, (name, next) :: more, flags, relocation =>
    match tree.child (List.map towlower) name with
    | none => (flags, relocation)
    | some (mark, items) =>
      if next = [] then
        let last := lastFlags flags mark
        (if checkChildren && hasChildWith last items then last ||| fileChildrenDeletedFlag
          else last, lastRelocation relocation mark next)
      else
        walk checkChildren items more (passFlags flags mark) (lastRelocation relocation mark next)

/-- `File_GetPathFlags_internal`: the flags, and the relocation where there is one. -/
def getPathFlags (root : PathNodes) (path : List WChar) (checkChildren : Bool) :
    BitVec 32 × Option (List WChar) :=
  walk towlower checkChildren root (segments path) 0 none

/-- What `File_MarkDeleted_internal` leaves: the tree, whether it did something, and whether a
node was taken out. -/
structure Marked where
  root : PathNodes
  set : Bool
  truncated : Bool

/-- `File_MarkDeleted_internal` -/
def markDeleted (root : PathNodes) (path : List WChar) : Marked :=
  match findPathBranche towlower root path with
  | some (mark, items) =>
    if mark.flags = fileDeletedFlag ∧ items = .nil then ⟨root, false, false⟩
    else
      ⟨setPathFlags towlower (root.remove (List.map towlower) (names path)) path fileDeletedFlag 0
        none, true, true⟩
  | none => ⟨setPathFlags towlower root path fileDeletedFlag 0 none, true, false⟩

/-! The steps of `File_SetRelocation_internal`. -/

/-- 2. The relocation of the old path, which is its true target. -/
def relocationOf (root : PathNodes) (oldTruePath : List WChar) : Option (List WChar) :=
  (findPathBranche towlower root oldTruePath).bind fun found =>
    if found.1.relocated then found.1.relocation else none

/-- 2. The old path is not relocated any more.  The text of the relocation leaves its node here:
nothing looks at it there before step 6 frees it. -/
def releaseOld (root : PathNodes) (oldTruePath : List WChar) : PathNodes :=
  if (findPathBranche towlower root oldTruePath).isSome then
    changeLast towlower Mark.release root oldTruePath
  else root

/-- 4. The new path is relocated to the true path, which may have a relocated parent itself when
it is not a true target. -/
def redirect (root : PathNodes) (truePath newTruePath : List WChar) (isTarget : Bool) :
    PathNodes :=
  let root := changeLast towlower id root newTruePath
  let truePath :=
    if isTarget then truePath else (getPathFlags towlower root truePath true).2.getD truePath
  changeLast towlower (fun m => ⟨m.flags ||| fileRelocationFlag, some truePath⟩) root newTruePath

/-- 5. The nodes below the old path go below the new one.  When the new path is below the old
one, they are lost with it.  When the paths lead to one node, a single child goes to the end of
its own level; with more of them the loop does not end. -/
def reattach (root : PathNodes) (old new : List (List WChar)) : Option PathNodes :=
  match root.find (List.map towlower) old with
  | none => some root
  | some (_, items) =>
    if old.map (List.map towlower) = new.map (List.map towlower) then
      if items.keys.length ≤ 1 then some root else none
    else
      some ((root.mapItems (List.map towlower) (fun _ => .nil) old).mapItems (List.map towlower)
        (fun u => u.append items) new)

/-- `File_SetRelocation_internal`; `none` when the call does not come back, which is also so
when the new path has no last node, as that node is used. -/
def setRelocation (root : PathNodes) (oldTruePath newTruePath : List WChar) : Option PathNodes :=
  if sameNoCase towlower oldTruePath newTruePath then some root
  else if hasLast newTruePath then
    let node := findPathBranche towlower root oldTruePath
    let target := relocationOf towlower root oldTruePath
    let truePath := target.getD oldTruePath
    -- 3. the true path is deleted
    let root := setPathFlags towlower (releaseOld towlower root oldTruePath) truePath
      fileDeletedFlag 0 none
    let root := redirect towlower root truePath newTruePath target.isSome
    (if node.isSome then reattach towlower root (names oldTruePath) (names newTruePath)
      else some root).map fun root =>
        -- 6. the relocation of the old node is freed
        if target.isSome then
          changeLast towlower (fun m => { m with relocation := Option.none }) root oldTruePath
        else root
  else none

end Fold

end Sandboxie.PathTree
