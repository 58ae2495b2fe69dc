import Sandboxie.Plus.TabNormal
import Sandboxie.Lib.Arrange

/-!
# A strip of tabs and its list

`CTabStateManager` over a `QTabWidget` or a `QStackedLayout`, in a `CM3PageNavigationHost` that
shows the titles of the pages in a list (`SandMan/Windows/M3PageNavigationHost.cpp`).  A page is
known by its key, and the current page by that of the page.

The containers send signals while they are changed: a page that becomes current is selected in
the list and becomes the active page of the manager, and a row that becomes current shows its
page.  What a signal does is written where it is sent.
-/

namespace Sandboxie.Tabs

/-- A row of the list, with the index of its page in `Qt::UserRole`. -/
structure Row where
  text : QString
  index : Nat
  hidden : Bool := false

/-- What is used of Qt besides: the row that becomes current when the current one is taken, and
whether a `QStackedLayout` also tells that the index of its current page went down. -/
structure Qt extends Unicode where
  neighbour : List Row → Nat → Option Nat
  announces : Bool

/-- What is saved: the JSON object of `save`. -/
structure Blob where
  schema : Nat
  order : List QString
  pinned : List QString
  groups : SortedMap QString QString
  groupOrder : List QString
  metadata : SortedMap QString GroupMetadata
  active : QString

structure Strip where
  /-- a `QTabWidget`, else a `QStackedLayout` -/
  tabs : Bool
  pages : List QString
  current : Option QString
  /-- there is a manager -/
  managed : Bool
  restoring : Bool := false
  active : QString := []
  groups : Groups := Groups.empty
  saved : Option Blob := none
  /-- the text of a tab, or the title that the host finds for a page -/
  title : QString → QString
  rows : List Row := []
  row : Option Nat := none
  titles : List QString := []
  /-- the order of the pages when the host built its list, which is not in the source -/
  bound : List QString := []

variable (qt : Qt)

namespace Strip

/-! ### Signals -/

def currentIndex (s : Strip) : Option Nat := s.current.map fun key => s.pages.idxOf key

/-- `visible` in `applyGroupPresentation` -/
def visible (s : Strip) (key : QString) : Bool :=
  let groupName := groupForTab qt.toUnicode s.groups key
  groupName = [] || s.groups.isPinned key || s.current = some key ||
    !((s.groups.metadata.value groupName).getD {}).collapsed

def applyGroupPresentation (s : Strip) : Strip :=
  let s := { s with groups := ensureGroupMetadata qt.toUnicode s.groups }
  { s with rows := s.rows.mapIdx fun i r =>
      match s.pages[i]? with
      | some key => { r with hidden := !s.visible qt key }
      | none => r }

/-- The object that `save` writes. -/
def blob (s : Strip) : Blob :=
  let ordered := orderedGroupNames qt.toUnicode s.groups
  { schema := 3
    order := s.pages
    pinned := s.groups.pinned.keys
    groups := s.groups.groups
    groupOrder := ordered
    metadata := ordered.foldl (fun m name =>
      let value := (s.groups.metadata.value name).getD {}
      m.insert name { value with color := some (value.color.getD 0xff000000) }) SortedMap.empty
    active := if s.active = [] then s.current.getD [] else s.active }

def save (s : Strip) : Strip :=
  if s.restoring || s.pages = [] then s else { s with saved := some (s.blob qt) }

/-- `saveActive`, for the current page -/
def saveActive (s : Strip) : Strip :=
  save qt (applyGroupPresentation qt { s with active := s.current.getD [] })

/-- `QListWidget::setCurrentRow`, whose signal shows the page that is current already -/
def setCurrentRow (s : Strip) (row : Option Nat) : Strip :=
  { s with row := row.filter (· < s.rows.length) }

/-- `currentChanged`: to the host, and to the manager -/
def currentChanged (s : Strip) : Strip :=
  let s := s.setCurrentRow s.currentIndex
  if s.managed then saveActive qt s else s

def showPage (s : Strip) (key : QString) : Strip :=
  if s.current = some key then s else currentChanged qt { s with current := some key }

/-- `setCurrentIndex` of the container -/
def setCurrentIndex (s : Strip) (index : Nat) : Strip :=
  match s.pages[index]? with
  | some key => showPage qt s key
  | none => s

/-- `addNavigationItem` of the pages from one on, `m_titles` included -/
def rebuildNavigation (s : Strip) : Strip :=
  { s with
    titles := s.pages.map s.title
    rows := s.pages.mapIdx fun i key => { text := s.title key, index := i }
    row := none
    bound := s.pages }

/-- `tabMoved`: to the host, and to the manager -/
def tabMoved (s : Strip) : Strip :=
  let s := s.rebuildNavigation
  let s := s.setCurrentRow s.currentIndex
  if s.managed then save qt (applyGroupPresentation qt s) else s

def moveTab (s : Strip) (i target : Nat) : Strip :=
  if i < s.pages.length ∧ target < s.pages.length ∧ i ≠ target then
    let s' := tabMoved qt { s with pages := Arrange.move s.pages i target }
    if s'.currentIndex = s.currentIndex then s' else currentChanged qt s'
  else s

def removeWidget (s : Strip) (key : QString) : Strip :=
  let i := s.pages.idxOf key
  let s' := { s with pages := s.pages.eraseIdx i }
  if s.current = some key then
    match (s'.pages[i]?).or s'.pages[i - 1]? with
    | some next => currentChanged qt { s' with current := some next }
    | none =>
      let s' := { s' with current := none }
      if qt.announces then currentChanged qt s' else s'
  else if qt.announces && s'.currentIndex ≠ s.currentIndex then currentChanged qt s'
  else s'

def insertWidget (s : Strip) (index : Nat) (key : QString) : Strip :=
  let s' := { s with pages := s.pages.insertIdx (min index s.pages.length) key }
  match s.current with
  | some _ => s'
  | none => currentChanged qt { s' with current := some key }

/-- `QListWidget::takeItem`, where the row that becomes current shows its page -/
def takeItem (s : Strip) (index : Nat) : Strip :=
  let s' :=
    if s.row = some index then
      match qt.neighbour s.rows index with
      | some row => setCurrentIndex qt (s.setCurrentRow (some row)) row
      | none => s.setCurrentRow none
    else s
  { s' with
    rows := s'.rows.eraseIdx index
    row := s'.row.map fun row => if index < row then row - 1 else row }

/-! ### Restoring the order -/

abbrev Items := List (QString × Row)

/-- The loop that takes the items of the list, from the last one on, into `navigationItems`. -/
def takeItems : Nat → Strip → Items → Strip × Items
  | 0, s, items => (s, items)
  | n + 1, s, items =>
    let item := s.rows[n]?
    let s := takeItem qt s n
    match item with
    | some r =>
      match s.pages[r.index]? with
      | some key => takeItems n s ((key, r) :: items)
      | none => takeItems n s items
    | none => takeItems n s items

def moveTabs (s : Strip) : Nat → List QString → Strip
  | _, [] => s
  | target, wanted :: rest =>
    let current := target + (s.pages.drop target).idxOf wanted
    let s := if current < s.pages.length ∧ current ≠ target then moveTab qt s current target
      else s
    moveTabs s (target + 1) rest

def insertPages (s : Strip) : Nat → List QString → Strip
  | _, [] => s
  | target, key :: rest => insertPages (insertWidget qt (removeWidget qt s key) target key)
      (target + 1) rest

/-- The loop of `restoreOrder` that puts the items of the pages back. -/
def addItems (items : Items) : Nat → List QString → List Row
  | _, [] => []
  | index, key :: rest =>
    match items.lookup key with
    | some r => { r with index := index, hidden := false } :: addItems items (index + 1) rest
    | none => addItems items (index + 1) rest

/-- The loop of `restoreGroupedOrder` that does. -/
def addGroupedItems (items : Items) : List Row → List QString → List Row
  | rows, [] => rows
  | rows, key :: rest =>
    match items.lookup key with
    | some r => addGroupedItems items
        (rows ++ [{ r with index := rows.length, hidden := false }]) rest
    | none => addGroupedItems items rows rest

def arrangeStack (s : Strip) (order : List QString) : Strip × Items :=
  let taken := takeItems qt s.rows.length s []
  (insertPages qt { taken.1 with rows := [], row := none } 0 order, taken.2)

/-- The page of `m_active` becomes current, if there is one. -/
def showActive (s : Strip) : Strip :=
  if s.active ≠ [] ∧ s.active ∈ s.pages then showPage qt s s.active else s

/-- `desired` in `restoreGroupedOrder` -/
def desired (s : Strip) : List QString :=
  let append (desired : List QString) (key : QString) :=
    if key ≠ [] && !desired.contains key then desired ++ [key] else desired
  let groupOf := groupForTab qt.toUnicode s.groups
  let pinned := s.pages.filter s.groups.isPinned
  let grouped := (orderedGroupNames qt.toUnicode s.groups).flatMap fun groupName =>
    s.pages.filter fun key =>
      !s.groups.isPinned key && sameName qt.toUnicode (groupOf key) groupName
  let ungrouped := s.pages.filter fun key => !s.groups.isPinned key && groupOf key = []
  (pinned ++ grouped ++ ungrouped).foldl append []

def restoreGroupedOrder (s : Strip) : Strip :=
  let desired := s.desired qt
  let s' := { s with restoring := true }
  let s' :=
    if s.tabs then moveTabs qt s' 0 desired
    else
      let arranged := arrangeStack qt s' (desired.filter (s.pages.contains ·))
      showActive qt { arranged.1 with rows := addGroupedItems arranged.2 [] desired }
  { s' with restoring := s.restoring }

def restoreOrder (s : Strip) : Strip :=
  match s.saved with
  | some blob =>
    if blob.schema = 1 ∨ blob.schema = 2 ∨ blob.schema = 3 then
      let s' := { s with restoring := true }
      let s' :=
        if s.tabs then moveTabs qt s' 0 blob.order
        else
          let wanted := blob.order.filter (s.pages.contains ·)
          let arranged := arrangeStack qt s'
            (wanted ++ s.pages.filter fun key => !wanted.contains key)
          { arranged.1 with rows := addItems arranged.2 0 arranged.1.pages }
      let s' := showActive qt s'
      { s' with groups := ensureGroupMetadata qt.toUnicode s'.groups, restoring := s.restoring }
    else s
  | none => s

/-- The groups that `load` reads. -/
def loadGroups (blob : Blob) : Groups :=
  let trim := trimmed qt.toUnicode
  let groups :=
    { pinned := blob.pinned.foldl (fun m key =>
        if trim key = [] then m else m.insert (trim key) ()) SortedMap.empty
      groups := blob.groups.entries.foldl (fun m e =>
        if trim e.1 = [] then m else m.insert (trim e.1) (trim e.2)) SortedMap.empty
      metadata := if 3 ≤ blob.schema then blob.metadata.entries.foldl (fun m e =>
        if trim e.1 = [] then m else m.insert (trim e.1) e.2) SortedMap.empty else SortedMap.empty
      groupOrder := if 3 ≤ blob.schema then (blob.groupOrder.map trim).filter (· ≠ []) else [] }
  ensureGroupMetadata qt.toUnicode groups

def load (s : Strip) : Strip :=
  match s.saved with
  | some blob =>
    if blob.schema = 1 ∨ blob.schema = 2 ∨ blob.schema = 3 then
      { s with
        groups := loadGroups qt blob
        active := if 2 ≤ blob.schema then trimmed qt.toUnicode blob.active else [] }
    else s
  | none => s

/-- `initialize`, of a new manager -/
def initializeManager (s : Strip) : Strip :=
  if s.pages = [] then s
  else
    let s := { s with managed := true, active := [], groups := Groups.empty }
    save qt (applyGroupPresentation qt (restoreGroupedOrder qt (restoreOrder qt (load qt s))))

end Strip

end Sandboxie.Tabs
