import Sandboxie.Common.Text
import Sandboxie.Lib.Json
import Mathlib.Algebra.Order.Ring.Int

/-!
# Schedule rules

`MiscHelpers/Common/ScheduledSettings.cpp`: the rules of a schedule, how they are checked,
stored and read back, and at which times a rule matches.

A string is a list of UTF-16 code units.  A stored document is the JSON value that its text
stands for, `none` where the text is empty or no JSON.  What Qt does with dates, times,
colors and addresses in text is a parameter.
-/

namespace Sandboxie.Schedule

abbrev QString := List WChar

def text (s : String) : QString := wide s.toList

/-! ### Dates and times -/

/-- Leap years.  There is no year 0, and the years before it count from -1 down. -/
def isLeap (year : Int) : Bool :=
  let y := if year < 1 then year + 1 else year
  y % 4 = 0 && (y % 100 ≠ 0 || y % 400 = 0)

def daysInMonth (year : Int) (month : Nat) : Nat :=
  if month = 2 then if isLeap year then 29 else 28
  else if month = 4 ∨ month = 6 ∨ month = 9 ∨ month = 11 then 30
  else 31

/-- The check of `QDate::isValid`. -/
def validDate (year : Int) (month day : Nat) : Bool :=
  year ≠ 0 && 1 ≤ month && month ≤ 12 && 1 ≤ day && day ≤ daysInMonth year month

/-- A valid `QDate`. -/
structure Date where
  year : Int
  month : Nat
  day : Nat
  valid : validDate year month day = true
deriving DecidableEq, Repr

/-- `QDate::toJulianDay` -/
def Date.julianDay (d : Date) : Int :=
  let year := if d.year < 0 then d.year + 1 else d.year
  let a : Int := (14 - d.month) / 12
  let y := year + 4800 - a
  let m : Int := d.month + 12 * a - 3
  d.day + (153 * m + 2) / 5 + 365 * y + y / 4 - y / 100 + y / 400 - 32045

/-- `QDate::dayOfWeek`, 1 for Monday. -/
def Date.dayOfWeek (d : Date) : Int := d.julianDay % 7 + 1

theorem validDate_last (year : Int) (month : Nat) (hyear : year ≠ 0) (hlow : 1 ≤ month)
    (hhigh : month ≤ 12) : validDate year month (daysInMonth year month) = true := by
  have hdays : 1 ≤ daysInMonth year month := by
    unfold daysInMonth
    split_ifs <;> decide
  simp [validDate, hyear, hlow, hhigh, hdays]

theorem validDate_before {year : Int} {month day : Nat} (h : validDate year month day = true)
    (hday : 1 < day) : validDate year month (day - 1) = true := by
  simp only [validDate, Bool.and_eq_true, decide_eq_true_eq] at h ⊢
  omega

/-- `QDate::addDays(-1)` -/
def Date.previous (d : Date) : Date :=
  if hday : 1 < d.day then ⟨d.year, d.month, d.day - 1, validDate_before d.valid hday⟩
  else if hmonth : 1 < d.month then
    ⟨d.year, d.month - 1, daysInMonth d.year (d.month - 1), by
      have hvalid := d.valid
      simp only [validDate, Bool.and_eq_true, decide_eq_true_eq] at hvalid
      exact validDate_last d.year (d.month - 1) hvalid.1.1.1.1 (by omega) (by omega)⟩
  else
    let year := if d.year = 1 then -1 else d.year - 1
    ⟨year, 12, daysInMonth year 12, by
      refine validDate_last _ 12 ?_ (by decide) (by decide)
      show (if d.year = 1 then (-1 : Int) else d.year - 1) ≠ 0
      split_ifs with hone
      · decide
      · omega⟩

/-- A valid `QTime`: the milliseconds since midnight. -/
abbrev Time := Fin 86400000

/-- `QTime(h, m, s)` -/
def Time.of (h m s : Nat) : Time := Fin.ofNat 86400000 ((h * 3600 + m * 60 + s) * 1000)

/-- The milliseconds of a `QTime`, which are below zero for one that is not valid. -/
def msecs : Option Time → Int
  | none => -1
  | some t => t.val

def digits : Nat → Nat → QString
  | 0, _ => []
  | width + 1, n => digits width (n / 10) ++ [48 + n % 10]

def isoDate (d : Date) : QString :=
  if 0 ≤ d.year ∧ d.year ≤ 9999 then
    digits 4 d.year.toNat ++ [45] ++ digits 2 d.month ++ [45] ++ digits 2 d.day
  else []

/-- `QTime::toString("HH:mm:ss")` -/
def timeText (t : Time) : QString :=
  digits 2 (t.val / 3600000) ++ [58] ++ digits 2 (t.val / 60000 % 60) ++ [58] ++
    digits 2 (t.val / 1000 % 60)

/-! ### Qt -/

/-- The parts of a `QUrl`. -/
structure Url where
  scheme : QString
  host : QString
  userName : QString
  password : QString
  query : QString
  fragment : QString
  port : Int
  path : QString
deriving DecidableEq, Repr

/-- What Qt finds in a text. -/
structure Qt where
  isSpace : WChar → Bool
  /-- `QColor(name).isValid()` -/
  isColor : QString → Bool
  /-- `QUrl(text)`, where it is valid. -/
  url : QString → Option Url
  /-- `QDate::fromString(text, Qt::ISODate)` -/
  parseDate : QString → Option Date
  /-- `QTime::fromString(text, "HH:mm:ss")` -/
  parseTime : QString → Option Time

def Time.whole (t : Time) : Time :=
  ⟨t.val / 1000 * 1000, Nat.lt_of_le_of_lt (Nat.div_mul_le_self _ _) t.isLt⟩

/-- What Qt documents about its texts of dates and times. -/
structure Qt.Documented (q : Qt) : Prop where
  parse_isoDate : ∀ d : Date, 0 ≤ d.year → d.year ≤ 9999 → q.parseDate (isoDate d) = some d
  parse_empty : q.parseDate [] = none
  parse_timeText : ∀ t, q.parseTime (timeText t) = some t.whole
  parseTime_whole : ∀ s t, q.parseTime s = some t → t.val % 1000 = 0

/-- `QString::trimmed` finds nothing. -/
def Qt.isBlank (q : Qt) (s : QString) : Bool := s.all q.isSpace

/-! ### Rules -/

structure Source where
  kind : QString := text "local"
  url : QString := []
  entityId : QString := []
  credentialRef : QString := []
  refreshSeconds : Int := 300
deriving DecidableEq, Repr

structure Rule where
  id : QString := []
  label : QString := []
  enabled : Bool := true
  priority : Int := 0
  startDate : Option Date := none
  endDate : Option Date := none
  startTime : Option Time := some (Time.of 0 0 0)
  endTime : Option Time := some (Time.of 23 59 59)
  weekdays : List Int := []
  values : SortedMap QString QString := SortedMap.empty
  source : Source := {}
deriving DecidableEq

def kKeys : List QString := [text "language", text "theme", text "density", text "accent"]

/-- `Rule::matches`, with the local date and time, `none` where they are not valid. -/
def Rule.matchesAt (rule : Rule) (local' : Option (Date × Time)) : Bool :=
  match local' with
  | none => false
  | some (today, time) =>
    if rule.enabled = false then false
    else
      let start := msecs rule.startTime
      let finish := msecs rule.endTime
      let crossesMidnight := finish < start
      let date := if crossesMidnight ∧ (time.val : Int) < start then today.previous else today
      if rule.startDate.any fun d => date.julianDay < d.julianDay then false
      else if rule.endDate.any fun d => d.julianDay < date.julianDay then false
      else if rule.weekdays ≠ [] ∧ date.dayOfWeek ∉ rule.weekdays then false
      else if crossesMidnight then start ≤ time.val || (time.val : Int) ≤ finish
      else start ≤ time.val && (time.val : Int) ≤ finish

/-! ### Validation -/

/-- The issues that `validate` finds. -/
inductive Issue
  | noIdentifier
  | noLabel
  | priority
  | dateOrder
  | times
  | weekday
  | settingNotAllowed (key : QString)
  | language
  | theme
  | density
  | accent
  | sourceKind
  | refreshSeconds
  | localMetadata
  | externalUrl
  | credentialRef
  | httpsEntity
  | entity
deriving DecidableEq, Repr

/-- `$` at the end of a pattern is also in front of a last newline. -/
def matchesToEnd (p : QString → Bool) (s : QString) : Bool :=
  p s || (s.getLast? = some 10 && p s.dropLast)

def isDigit (c : WChar) : Bool := 48 ≤ c && c ≤ 57

def isLower (c : WChar) : Bool := 97 ≤ c && c ≤ 122

def isUpper (c : WChar) : Bool := 65 ≤ c && c ≤ 90

def hasValidCredentialRef (ref : QString) : Bool :=
  matchesToEnd (fun s =>
    match s.dropPrefix? (text "os-vault://scheduled-settings/") with
    | none => false
    | some name =>
      1 ≤ name.length && name.length ≤ 128 &&
        name.all fun c => isUpper c || isLower c || isDigit c || c = 95 || c = 45) ref

/-- The pattern of the entities of Home Assistant. -/
def hasValidEntity (entityId : QString) : Bool :=
  matchesToEnd (fun s =>
    [text "binary_sensor.", text "input_boolean."].any fun domain =>
      match s.dropPrefix? domain with
      | none => false
      | some name => name ≠ [] && name.all fun c => isLower c || isDigit c || c = 95) entityId

def validExternalUrl (q : Qt) (s kind : QString) : Bool :=
  match q.url s with
  | none => false
  | some url =>
    if url.scheme ≠ text "https" ∨ url.host = [] ∨ url.userName ≠ [] ∨ url.password ≠ [] ∨
        url.query ≠ [] ∨ url.fragment ≠ [] ∨ (url.port ≠ -1 ∧ url.port ≠ 443) ∨ 2048 < s.length
      then false
    else kind ≠ text "home-assistant" || url.path = [] || url.path = text "/"

/-- What `validate` finds in one of the values. -/
def valueIssues (q : Qt) (key value : QString) : List Issue :=
  if key ∉ kKeys then [.settingNotAllowed key]
  else if key = text "language" ∧
      value ∉ [text "english", text "cantonese", text "bilingual"] then [.language]
  else if key = text "theme" ∧ value ∉ [text "light", text "dark", text "system"] then [.theme]
  else if key = text "density" ∧ value ∉ [text "0", text "1", text "2"] then [.density]
  else if key = text "accent" ∧ q.isColor value = false then [.accent]
  else []

/-- What `validate` finds in the source. -/
def sourceIssues (q : Qt) (source : Source) : List Issue :=
  (if source.kind ∉ [text "local", text "https-api", text "home-assistant"] then
    [.sourceKind] else []) ++
  (if source.refreshSeconds < 15 ∨ 86400 < source.refreshSeconds then
    [.refreshSeconds] else []) ++
  if source.kind = text "local" then
    if source.url ≠ [] ∨ source.entityId ≠ [] ∨ source.credentialRef ≠ [] then
      [.localMetadata] else []
  else
    (if validExternalUrl q source.url source.kind = false then [.externalUrl] else []) ++
    (if hasValidCredentialRef source.credentialRef = false then [.credentialRef] else []) ++
    (if source.kind = text "https-api" ∧ source.entityId ≠ [] then [.httpsEntity] else []) ++
    (if source.kind = text "home-assistant" ∧ hasValidEntity source.entityId = false then
      [.entity] else [])

/-- `ScheduledSettings::validate`.  A date that is not valid is the null date, so that the
checks for other invalid dates find nothing. -/
def validate (q : Qt) (rule : Rule) : List Issue :=
  (if q.isBlank rule.id then [.noIdentifier] else []) ++
  (if q.isBlank rule.label then [.noLabel] else []) ++
  (if rule.priority < -1000 ∨ 1000 < rule.priority then [.priority] else []) ++
  (match rule.startDate, rule.endDate with
    | some start, some finish =>
      if finish.julianDay < start.julianDay then [.dateOrder] else []
    | _, _ => []) ++
  (if rule.startTime = none ∨ rule.endTime = none then [.times] else []) ++
  (rule.weekdays.flatMap fun day => if day < 1 ∨ 7 < day then [.weekday] else []) ++
  (rule.values.entries.flatMap fun e => valueIssues q e.1 e.2) ++
  sourceIssues q rule.source

/-! ### Storage -/

def insertNonEmpty (o : Json.Object) (name : String) (s : QString) : Json.Object :=
  if s = [] then o else o.insert (text name) (.str s)

def insertDate (o : Json.Object) (name : String) (d : Option Date) : Json.Object :=
  match d with
  | none => o
  | some d => o.insert (text name) (.str (isoDate d))

/-- `toString("HH:mm:ss")` of a `QTime`, which is empty for one that is not valid. -/
def timeString : Option Time → QString
  | none => []
  | some t => timeText t

/-- The source in `toJson`. -/
def sourceJson (source : Source) : Json.Object :=
  let o := Json.Object.insert [] (text "kind") (.str source.kind)
  let o := insertNonEmpty o "url" source.url
  let o := insertNonEmpty o "entityId" source.entityId
  let o := insertNonEmpty o "credentialRef" source.credentialRef
  o.insert (text "refreshSeconds") (.num source.refreshSeconds)

/-- The values in `toJson`. -/
def valuesJson (values : SortedMap QString QString) : Json.Object :=
  values.entries.foldl (fun o e => if e.1 ∈ kKeys then o.insert e.1 (.str e.2) else o) []

/-- A weekday in `toJson`. -/
def dayJson (day : Int) : Json := .num (day : Rat)

def toJson (rule : Rule) : Json.Object :=
  let o := Json.Object.insert [] (text "id") (.str rule.id)
  let o := o.insert (text "label") (.str rule.label)
  let o := o.insert (text "enabled") (.bool rule.enabled)
  let o := o.insert (text "priority") (.num rule.priority)
  let o := insertDate o "startDate" rule.startDate
  let o := insertDate o "endDate" rule.endDate
  let o := o.insert (text "startTime") (.str (timeString rule.startTime))
  let o := o.insert (text "endTime") (.str (timeString rule.endTime))
  let o := o.insert (text "weekdays") (.arr (rule.weekdays.map dayJson))
  let o := o.insert (text "values") (.obj (valuesJson rule.values))
  o.insert (text "source") (.obj (sourceJson rule.source))

def qBound (low n high : Int) : Int := max low (min n high)

/-- The weekdays in `fromJson`: numbers of days that were not there before. -/
def readDays : List Json → List Int → List Int
  | [], days => days
  | value :: more, days =>
    let day := Json.toInt (some value) 0
    if 1 ≤ day ∧ day ≤ 7 ∧ day ∉ days then readDays more (days ++ [day])
    else readDays more days

/-- The values in `fromJson`. -/
def readValues (values : Json.Object) : SortedMap QString QString :=
  kKeys.foldl (fun m key =>
    match values.value key with
    | none => m
    | some v => m.insert key (Json.toStr (some v) [])) SortedMap.empty

/-- The source in `fromJson`. -/
def readSource (source : Json.Object) : Source :=
  if source.isEmpty then {}
  else
    { kind := Json.toStr (source.value (text "kind")) (text "local")
      url := Json.toStr (source.value (text "url")) []
      entityId := Json.toStr (source.value (text "entityId")) []
      credentialRef := Json.toStr (source.value (text "credentialRef")) []
      refreshSeconds := Json.toInt (source.value (text "refreshSeconds")) 300 }

/-- `fromJson`, with the identifier that `QUuid::createUuid` would give. -/
def fromJson (q : Qt) (uuid : QString) (o : Json.Object) : Rule :=
  let id := Json.toStr (o.value (text "id")) []
  let start := q.parseTime (Json.toStr (o.value (text "startTime")) [])
  let finish := q.parseTime (Json.toStr (o.value (text "endTime")) [])
  { id := if id = [] then uuid else id
    label := Json.toStr (o.value (text "label")) []
    enabled := Json.toBool (o.value (text "enabled")) true
    priority := qBound (-1000) (Json.toInt (o.value (text "priority")) 0) 1000
    startDate := q.parseDate (Json.toStr (o.value (text "startDate")) [])
    endDate := q.parseDate (Json.toStr (o.value (text "endDate")) [])
    startTime := if start.isSome then start else some (Time.of 0 0 0)
    endTime := if finish.isSome then finish else some (Time.of 23 59 59)
    weekdays := readDays (Json.toArray (o.value (text "weekdays"))) []
    values := readValues (Json.toObject (o.value (text "values")))
    source := readSource (Json.toObject (o.value (text "source"))) }

/-- The loop of `load` over the stored rules, with the identifiers for rules without one. -/
def loadRules (q : Qt) (uuids : Nat → QString) : Nat → List Json → List Rule
  | _, [] => []
  | n, .obj o :: more =>
    let rule := fromJson q (uuids n) o
    if validate q rule = [] then rule :: loadRules q uuids (n + 1) more
    else loadRules q uuids (n + 1) more
  | n, _ :: more => loadRules q uuids (n + 1) more

def storedRules (document : Option Json) : List Json :=
  match document with
  | some (.obj root) =>
    if Json.toInt (Json.Object.value root (text "schemaVersion")) 0 ≠ 1 then []
    else Json.toArray (Json.Object.value root (text "rules"))
  | _ => []

def load (q : Qt) (uuids : Nat → QString) (document : Option Json) : List Rule :=
  loadRules q uuids 0 (storedRules document)

/-- `ScheduledSettings::save`: the document that is stored, or the issues of the first rule
that has some. -/
def save (q : Qt) (rules : List Rule) : Except (List Issue) Json :=
  match rules.find? fun rule => validate q rule ≠ [] with
  | some rule => .error (validate q rule)
  | none =>
    .ok (.obj (Json.Object.insert (Json.Object.insert [] (text "schemaVersion") (.num 1))
      (text "rules") (.arr (rules.map fun rule => .obj (toJson rule)))))

end Sandboxie.Schedule
