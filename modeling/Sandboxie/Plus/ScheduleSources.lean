import Sandboxie.Plus.ScheduledRules
import Mathlib.Logic.Function.Basic

/-!
# External sources of schedule rules

`MiscHelpers/Common/ScheduledSettings.cpp`: the table of external states, the requests that
`refreshExternalSources` starts, the replies that come back, and `apply`.

The table is keyed by the identifier and the credential of a rule.  A request keeps the rule
it was started for.  The requests of a state are all that were started, the newest first.
-/

namespace Sandboxie.Schedule

/-- The texts of `ExternalState::status`. -/
inductive Status
  | notActivated
  | vaultMissing
  | refreshing
  | active
  | off
  | failed
deriving DecidableEq, Repr

/-- `ExternalState`, with times in milliseconds. -/
structure ExternalState where
  active : Bool := false
  inFlight : Bool := false
  nextRefresh : Option Int := none
  status : Status := .notActivated
deriving DecidableEq, Repr

def stateKey (rule : Rule) : QString := rule.id ++ [124] ++ rule.source.credentialRef

/-- A finished `QNetworkReply`. -/
structure Reply where
  noError : Bool
  redirect : Bool
  size : Nat
  /-- in lower case -/
  contentType : QString
  /-- the body, where it is JSON -/
  body : Option Json

/-- What a reply reports, where its answer can be used. -/
def Reply.report (reply : Reply) (kind : QString) : Option Bool :=
  if reply.noError ∧ reply.redirect = false ∧ reply.size ≤ 64 * 1024 ∧
      (text "application/json").isPrefixOf reply.contentType then
    match reply.body with
    | some (.obj object) =>
      if kind = text "home-assistant" then
        some (Json.toStr (Json.Object.value object (text "state")) [] = text "on")
      else if object.length = 1 then
        match Json.Object.value object (text "active") with
        | some (.bool active) => some active
        | _ => none
      else none
    | _ => none
  else none

/-- A request that was started, and its reply when it has come. -/
structure Request where
  rule : Rule
  reply : Option Reply := none

/-- The settings that `apply` reads and writes. -/
structure Settings where
  schoolMode : Bool := false
  languageMode : QString := text "english"
  density : Int := 1
  accentSeed : QString := []
  useDarkTheme : Int := 2
deriving DecidableEq

/-- A setting that `apply` writes. -/
inductive Write
  | languageMode (mode : QString)
  | density (density : Int)
  | accentSeed (seed : QString)
  | useDarkTheme (theme : Int)
deriving DecidableEq

def Settings.write (settings : Settings) : Write → Settings
  | .languageMode mode => { settings with languageMode := mode }
  | .density density => { settings with density := density }
  | .accentSeed seed => { settings with accentSeed := seed }
  | .useDarkTheme theme => { settings with useDarkTheme := theme }

/-- What the module keeps, and the requests. -/
structure State where
  document : Option Json := none
  settings : Settings := {}
  externalStates : QString → Option ExternalState := fun _ => none
  requests : List Request := []

/-- What a call finds outside of the module. -/
structure Env where
  /-- `QDateTime::currentDateTimeUtc()` -/
  now : Int
  /-- `QDateTime::currentDateTime()` -/
  current : Option (Date × Time)
  /-- the references that the vault has a usable secret for -/
  secret : QString → Bool
  /-- new identifiers for the rules that `effectiveRule` loads -/
  ruleIds : Nat → QString
  /-- new identifiers for the rules that `refreshExternalSources` loads -/
  refreshIds : Nat → QString

/-- `s_externalStates[key]` -/
def State.external (s : State) (key : QString) : ExternalState :=
  (s.externalStates key).getD {}

def State.setExternal (s : State) (key : QString) (state : ExternalState) : State :=
  { s with externalStates := Function.update s.externalStates key (some state) }

/-! ### Refreshing -/

/-- The rules that `refreshExternalSources` looks at. -/
def refreshable (q : Qt) (env : Env) (rule : Rule) : Bool :=
  rule.enabled && rule.source.kind ≠ text "local" && rule.matchesAt env.current &&
    validExternalUrl q rule.source.url rule.source.kind &&
    hasValidCredentialRef rule.source.credentialRef

def ExternalState.rests (state : ExternalState) (env : Env) (force : Bool) : Bool :=
  state.inFlight || (!force && state.nextRefresh.any fun t => env.now < t)

/-- One rule in the loop of `refreshExternalSources`. -/
def refreshOne (q : Qt) (env : Env) (force : Bool) (s : State) (rule : Rule) : State :=
  if refreshable q env rule = false then s
  else
    let key := stateKey rule
    let state := s.external key
    if state.rests env force then s.setExternal key state
    else if env.secret rule.source.credentialRef = false then
      s.setExternal key
        { state with
          active := false
          status := .vaultMissing
          nextRefresh := some (env.now + rule.source.refreshSeconds * 1000) }
    else
      { s.setExternal key
          { state with inFlight := true, active := false, status := .refreshing } with
        requests := { rule := rule } :: s.requests }

def refreshExternalSources (q : Qt) (env : Env) (force : Bool) (s : State) : State :=
  (load q env.refreshIds s.document).foldl (refreshOne q env force) s

/-! ### Applying -/

/-- The loop of `effectiveRule`. -/
def betterRule (at' : Option (Date × Time)) (best : Option Rule) (candidate : Rule) :
    Option Rule :=
  if candidate.matchesAt at' = false then best
  else
    match best with
    | none => some candidate
    | some rule =>
      if rule.priority < candidate.priority ∨
          (candidate.priority = rule.priority ∧ candidate.id < rule.id) then some candidate
      else best

/-- `effectiveRule`, `none` for the empty rule that stands for no rule. -/
def effectiveRule (q : Qt) (env : Env) (at' : Option (Date × Time)) (document : Option Json) :
    Option Rule :=
  (load q env.ruleIds document).foldl (betterRule at') none

/-- `toInt` of a density, for the texts that `validate` lets through. -/
def densityOf (s : QString) : Option Int :=
  if s = text "0" then some 0
  else if s = text "1" then some 1
  else if s = text "2" then some 2
  else none

/-- What `apply` writes for a rule. -/
def overrides (q : Qt) (settings : Settings) (rule : Rule) : List Write :=
  let language := (rule.values.value (text "language")).getD []
  let accent := (rule.values.value (text "accent")).getD []
  (if settings.schoolMode = false ∧ language ≠ [] ∧ settings.languageMode ≠ language ∧
      language ∈ [text "cantonese", text "bilingual", text "english"] then
    [.languageMode language] else []) ++
  (match (rule.values.value (text "density")).bind densityOf with
    | some density => if settings.density ≠ density then [.density density] else []
    | none => []) ++
  (if q.isColor accent ∧ settings.accentSeed ≠ accent then [.accentSeed accent] else []) ++
  (match rule.values.value (text "theme") with
    | some theme =>
      let desired := if theme = text "light" then 0 else if theme = text "dark" then 1 else 2
      if settings.useDarkTheme ≠ desired then [.useDarkTheme desired] else []
    | none => [])

/-- The rule whose overrides are written, with what is written. -/
abbrev Applied := Option (Rule × List Write)

/-- The end of `apply`, where the overrides are written. -/
def writeOverrides (q : Qt) (s : State) (rule : Rule) : State × Applied :=
  ({ s with settings := (overrides q s.settings rule).foldl Settings.write s.settings },
    some (rule, overrides q s.settings rule))

/-- `apply` at a local time. -/
def apply (q : Qt) (env : Env) (at' : Option (Date × Time)) (s : State) : State × Applied :=
  match effectiveRule q env at' s.document with
  | none => (s, none)
  | some rule =>
    if rule.id = [] then (s, none)
    else if rule.source.kind = text "local" then writeOverrides q s rule
    else
      let s := refreshExternalSources q env false s
      match s.externalStates (stateKey rule) with
      | none => (s, none)
      | some state => if state.active then writeOverrides q s rule else (s, none)

/-! ### Replies -/

/-- The state after a reply to a request for a rule. -/
def ExternalState.finished (state : ExternalState) (env : Env) (rule : Rule) (reply : Reply) :
    ExternalState :=
  let active := reply.report rule.source.kind = some true
  let status :=
    match reply.report rule.source.kind with
    | some on => if on then .active else .off
    | none => state.status
  { active := active
    inFlight := false
    nextRefresh := some (env.now + rule.source.refreshSeconds * 1000)
    status := if active = false ∧ status = .refreshing then .failed else status }

/-- The reply to a request, up to the call of `apply`. -/
def finished (env : Env) (i : Nat) (request : Request) (reply : Reply) (s : State) : State :=
  let key := stateKey request.rule
  { s.setExternal key ((s.external key).finished env request.rule reply) with
    requests := s.requests.set i { request with reply := some reply } }

/-! ### Runs -/

inductive Event
  /-- the stored rules change -/
  | edit (document : Option Json)
  /-- other code writes settings -/
  | settings (settings : Settings)
  /-- `apply` is called -/
  | apply (env : Env) (at' : Option (Date × Time))
  /-- `refreshExternalSources` is called -/
  | refresh (env : Env) (force : Bool)
  /-- the reply to a request comes -/
  | finish (env : Env) (i : Nat) (reply : Reply)

/-- The call of `apply` that an event makes: its state, its surroundings and its time. -/
def call (s : State) : Event → Option (State × Env × Option (Date × Time))
  | .apply env at' => some (s, env, at')
  | .finish env i reply =>
    match s.requests[i]? with
    | some request =>
      if request.reply.isNone then some (finished env i request reply s, env, env.current)
      else none
    | none => none
  | _ => none

/-- An event, with what `apply` writes in it. -/
def step (q : Qt) (s : State) (e : Event) : State × Applied :=
  match call s e with
  | some (s, env, at') => apply q env at' s
  | none =>
    match e with
    | .edit document => ({ s with document := document }, none)
    | .settings settings => ({ s with settings := settings }, none)
    | .refresh env force => (refreshExternalSources q env force s, none)
    | _ => (s, none)

def run (q : Qt) (s : State) (events : List Event) : State :=
  events.foldl (fun s e => (step q s e).1) s

end Sandboxie.Schedule
