import Sandboxie.Plus.ScheduleSources
import Sandboxie.Plus.ScheduledBounds

/-!
# Overrides of external rules

`Inv` ties the table of external states to the requests: a key is in flight when its newest
request has no reply, and active only when that reply reported on.  So `apply` never writes
for a rule whose newest request failed or is still on its way.  But the newest request of a
key need not be one for the source that the rule has now: `Settled` says when it is.
-/

namespace Sandboxie.Schedule

open List

variable {q : Qt} {env : Env} {s : State}

def SameSource (a b : Source) : Prop :=
  a.url = b.url ∧ a.entityId = b.entityId ∧ a.credentialRef = b.credentialRef

instance (a b : Source) : Decidable (SameSource a b) :=
  inferInstanceAs (Decidable (_ ∧ _ ∧ _))

def Request.reportedOn (request : Request) : Bool :=
  request.reply.any fun reply => reply.report request.rule.source.kind = some true

def State.ofKey (s : State) (key : QString) : List Request :=
  s.requests.filter fun request => stateKey request.rule = key

/-! ### The table of external states -/

@[simp] theorem external_setExternal (s : State) (key key' : QString) (state : ExternalState) :
    (s.setExternal key state).external key' = if key' = key then state else s.external key' := by
  show (Function.update s.externalStates key (some state) key').getD {} = _
  by_cases h : key' = key
  · rw [if_pos h, h, Function.update_self]
    rfl
  · rw [if_neg h, Function.update_of_ne h]
    rfl

/-- A state of the table and the requests of its key. -/
structure KeyInv (state : ExternalState) (requests : List Request) : Prop where
  old : ∀ request ∈ requests.tail, request.reply ≠ none
  inFlight : state.inFlight = true ↔ ∃ request ∈ requests.head?, request.reply = none
  active : state.active = true → ∃ request ∈ requests.head?, request.reportedOn = true

def Inv (s : State) : Prop := ∀ key, KeyInv (s.external key) (s.ofKey key)

theorem inv_initial (document : Option Json) (settings : Settings) :
    Inv { document := document, settings := settings } := by
  intro key
  refine ⟨?_, ?_, ?_⟩
  · intro request h
    exact absurd h not_mem_nil
  · refine ⟨fun h => (nomatch h), ?_⟩
    rintro ⟨request, h, -⟩
    exact nomatch h
  · exact fun h => nomatch h

theorem Inv.congr {s' : State} (h : Inv s) (hstates : s'.externalStates = s.externalStates)
    (hrequests : s'.requests = s.requests) : Inv s' := by
  intro key
  have hexternal : s'.external key = s.external key := by rw [State.external, hstates]; rfl
  have hofKey : s'.ofKey key = s.ofKey key := by rw [State.ofKey, hrequests]; rfl
  rw [hexternal, hofKey]
  exact h key

/-! ### One rule of a refresh -/

def starts (q : Qt) (env : Env) (force : Bool) (s : State) (rule : Rule) : Bool :=
  refreshable q env rule && !(s.external (stateKey rule)).rests env force &&
    env.secret rule.source.credentialRef

/-- What one rule of `refreshExternalSources` does. -/
inductive RefreshOne (q : Qt) (env : Env) (force : Bool) (s : State) (rule : Rule) : State → Prop
  | same (s' : State) (hrequests : s'.requests = s.requests)
      (hexternal : ∀ key, s'.external key = s.external key)
      (hstarts : starts q env force s rule = false) : RefreshOne q env force s rule s'
  | missing (s' : State) (state : ExternalState) (hrequests : s'.requests = s.requests)
      (hexternal : ∀ key, s'.external key = if key = stateKey rule then state else s.external key)
      (hidle : (s.external (stateKey rule)).inFlight = false) (hinFlight : state.inFlight = false)
      (hactive : state.active = false)
      (hnext : state.nextRefresh = some (env.now + rule.source.refreshSeconds * 1000)) :
      RefreshOne q env force s rule s'
  | start (s' : State) (state : ExternalState)
      (hrequests : s'.requests = { rule := rule } :: s.requests)
      (hexternal : ∀ key, s'.external key = if key = stateKey rule then state else s.external key)
      (hidle : (s.external (stateKey rule)).inFlight = false) (hinFlight : state.inFlight = true)
      (hactive : state.active = false) (hstarts : starts q env force s rule = true) :
      RefreshOne q env force s rule s'

theorem inFlight_of_not_rests {state : ExternalState} {force : Bool}
    (h : state.rests env force = false) : state.inFlight = false := by
  exact (Bool.or_eq_false_iff.mp h).1

theorem refreshOne_cases (force : Bool) (rule : Rule) :
    RefreshOne q env force s rule (refreshOne q env force s rule) := by
  unfold refreshOne
  by_cases hlooks : refreshable q env rule = false
  · rw [if_pos hlooks]
    exact .same s rfl (fun _ => rfl) (by simp [starts, hlooks])
  rw [if_neg hlooks]
  simp only
  by_cases hrests : (s.external (stateKey rule)).rests env force = true
  · rw [if_pos hrests]
    refine .same _ rfl (fun key => ?_) (by simp [starts, hrests])
    rw [external_setExternal]
    split_ifs with hkey
    · rw [hkey]
    · rfl
  · rw [if_neg hrests]
    rw [Bool.not_eq_true] at hrests
    by_cases hsecret : env.secret rule.source.credentialRef = false
    · rw [if_pos hsecret]
      have hidle := inFlight_of_not_rests hrests
      exact .missing _ _ rfl (fun key => external_setExternal s _ key _) hidle hidle rfl rfl
    · rw [if_neg hsecret]
      exact .start _ _ rfl (fun key => external_setExternal s _ key _)
        (inFlight_of_not_rests hrests) rfl rfl (by simp [starts, hlooks, hrests, hsecret])

theorem RefreshOne.inv {force : Bool} {rule : Rule} {s' : State}
    (hstep : RefreshOne q env force s rule s') (h : Inv s) : Inv s' := by
  intro key
  have hkeyInv := h key
  cases hstep with
  | same hrequests hexternal hstarts =>
    rw [hexternal, State.ofKey, hrequests]
    exact hkeyInv
  | missing state hrequests hexternal hidle hinFlight hactive hnext =>
    rw [hexternal, State.ofKey, hrequests]
    by_cases hkey : key = stateKey rule
    · rw [if_pos hkey]
      subst hkey
      refine ⟨hkeyInv.old, ?_, ?_⟩
      · rw [hinFlight, ← hidle]
        exact hkeyInv.inFlight
      · exact fun hon => absurd hon (by rw [hactive]; decide)
    · rw [if_neg hkey]
      exact hkeyInv
  | start state hrequests hexternal hidle hinFlight hactive hstarts =>
    rw [hexternal, State.ofKey, hrequests, filter_cons]
    by_cases hkey : key = stateKey rule
    · subst hkey
      rw [if_pos rfl, if_pos (decide_eq_true rfl)]
      refine ⟨?_, ?_, ?_⟩
      · -- the request that was the newest is not in flight
        intro request hmem hnone
        have hflight : (s.external (stateKey rule)).inFlight = true := by
          cases hlist : s.ofKey (stateKey rule) with
          | nil => exact absurd (hlist ▸ hmem : request ∈ []) not_mem_nil
          | cons newest rest =>
            have hold := hkeyInv.old
            have hin : request ∈ newest :: rest := hlist ▸ hmem
            rw [hlist] at hold
            rcases mem_cons.mp hin with heq | hin
            · refine hkeyInv.inFlight.mpr ⟨newest, ?_, heq ▸ hnone⟩
              rw [hlist]
              rfl
            · exact absurd hnone (hold request hin)
        rw [hidle] at hflight
        exact Bool.noConfusion hflight
      · exact ⟨fun _ => ⟨_, rfl, rfl⟩, fun _ => hinFlight⟩
      · exact fun hon => absurd hon (by rw [hactive]; decide)
    · rw [if_neg hkey, if_neg (by simpa using Ne.symm hkey)]
      exact hkeyInv

/-! ### Refreshing all rules -/

theorem inv_foldl (force : Bool) (rules : List Rule) :
    ∀ {s : State}, Inv s → Inv (rules.foldl (refreshOne q env force) s) := by
  induction rules with
  | nil => exact fun h => h
  | cons rule rules ih => exact fun h => ih ((refreshOne_cases force rule).inv h)

theorem inv_refresh (force : Bool) (h : Inv s) : Inv (refreshExternalSources q env force s) :=
  inv_foldl force _ h

theorem RefreshOne.starts_before {rule other : Rule} {s' : State}
    (hstep : RefreshOne q env false s rule s') (hseconds : 0 < rule.source.refreshSeconds)
    (h : starts q env false s' other = true) : starts q env false s other = true := by
  have hrests : (s'.external (stateKey other)).rests env false = false := by
    simp only [starts, Bool.and_eq_true, Bool.not_eq_true'] at h
    exact h.1.2
  have hsame : s'.external (stateKey other) = s.external (stateKey other) →
      starts q env false s other = true := by
    intro heq
    unfold starts at h ⊢
    rw [← heq]
    exact h
  cases hstep with
  | same hrequests hexternal hstarts => exact hsame (hexternal _)
  | missing state hrequests hexternal hidle hinFlight hactive hnext =>
    by_cases hkey : stateKey other = stateKey rule
    · have hstate := hexternal (stateKey other)
      rw [if_pos hkey] at hstate
      rw [hstate] at hrests
      unfold ExternalState.rests at hrests
      rw [hnext] at hrests
      simp only [Bool.not_false, Bool.true_and, Option.any_some, Bool.or_eq_false_iff,
        decide_eq_false_iff_not] at hrests
      omega
    · exact hsame ((hexternal _).trans (if_neg hkey))
  | start state hrequests hexternal hidle hinFlight hactive hstarts =>
    by_cases hkey : stateKey other = stateKey rule
    · have hstate := hexternal (stateKey other)
      rw [if_pos hkey] at hstate
      rw [hstate] at hrests
      have hnot := inFlight_of_not_rests hrests
      rw [hinFlight] at hnot
      exact Bool.noConfusion hnot
    · exact hsame ((hexternal _).trans (if_neg hkey))

theorem requests_foldl : ∀ (rules : List Rule) {s : State},
    (∀ rule ∈ rules, 0 < rule.source.refreshSeconds) →
      ∃ new, (rules.foldl (refreshOne q env false) s).requests = new ++ s.requests ∧
        ∀ request ∈ new, request.reply = none ∧ request.rule ∈ rules ∧
          starts q env false s request.rule = true := by
  intro rules
  induction rules with
  | nil => exact fun _ => ⟨[], rfl, fun request h => absurd h not_mem_nil⟩
  | cons rule rules ih =>
    intro s hseconds
    have hstep : RefreshOne q env false s rule (refreshOne q env false s rule) :=
      refreshOne_cases false rule
    have hpositive := hseconds rule mem_cons_self
    obtain ⟨new, hnew, hfacts⟩ := ih (s := refreshOne q env false s rule)
      fun r hr => hseconds r (mem_cons_of_mem rule hr)
    have hlater : ∀ request ∈ new, request.reply = none ∧ request.rule ∈ rule :: rules ∧
        starts q env false s request.rule = true := by
      intro request hmem
      obtain ⟨hreply, hrule, hstarts⟩ := hfacts request hmem
      exact ⟨hreply, mem_cons_of_mem rule hrule, hstep.starts_before hpositive hstarts⟩
    rw [foldl_cons, hnew]
    cases hstep with
    | same hrequests hexternal hstarts => exact ⟨new, by rw [hrequests], hlater⟩
    | missing state hrequests hexternal hidle hinFlight hactive hnext =>
      exact ⟨new, by rw [hrequests], hlater⟩
    | start state hrequests hexternal hidle hinFlight hactive hstarts =>
      refine ⟨new ++ [{ rule := rule }], by rw [hrequests, append_assoc]; rfl, ?_⟩
      intro request hmem
      rcases mem_append.mp hmem with hmem | hmem
      · exact hlater request hmem
      · rw [mem_singleton.mp hmem]
        exact ⟨rfl, mem_cons_self, hstarts⟩

/-! ### Replies -/

theorem filter_set {p : Request → Bool} {request request' : Request}
    (hp : p request = true) (hp' : p request' = true) (hreply : request.reply = none) :
    ∀ {requests : List Request} {i : Nat}, requests[i]? = some request →
      (∀ r ∈ (requests.filter p).tail, r.reply ≠ none) →
        (requests.filter p).head? = some request ∧
          (requests.set i request').filter p = request' :: (requests.filter p).tail := by
  intro requests
  induction requests with
  | nil => exact fun h => nomatch h
  | cons r rest ih =>
    intro i hi hold
    rw [filter_cons] at hold ⊢
    cases i with
    | zero =>
      obtain rfl : r = request := Option.some.inj hi
      rw [if_pos hp]
      refine ⟨rfl, ?_⟩
      rw [set_cons_zero, filter_cons, if_pos hp']
      rfl
    | succ i =>
      have hi : rest[i]? = some request := hi
      rw [set_cons_succ, filter_cons]
      by_cases hr : p r = true
      · rw [if_pos hr] at hold
        have hmem : request ∈ rest.filter p :=
          mem_filter.mpr ⟨mem_of_getElem? hi, hp⟩
        exact absurd hreply (hold request hmem)
      · rw [if_neg hr, if_neg hr]
        rw [if_neg hr] at hold
        exact ih hi hold

theorem filter_set_other {p : Request → Bool} {request request' : Request}
    (hp : p request = false) (hp' : p request' = false) :
    ∀ {requests : List Request} {i : Nat}, requests[i]? = some request →
      (requests.set i request').filter p = requests.filter p := by
  intro requests
  induction requests with
  | nil => exact fun h => nomatch h
  | cons r rest ih =>
    intro i hi
    cases i with
    | zero =>
      obtain rfl : r = request := Option.some.inj hi
      rw [set_cons_zero, filter_cons, filter_cons, if_neg (by rw [hp']; decide),
        if_neg (by rw [hp]; decide)]
    | succ i =>
      have hi : rest[i]? = some request := hi
      rw [set_cons_succ, filter_cons, filter_cons, ih hi]

theorem inv_finished {i : Nat} {request : Request} {reply : Reply} (h : Inv s)
    (hi : s.requests[i]? = some request) (hreply : request.reply = none) :
    Inv (finished env i request reply s) := by
  intro key
  have hkeyInv := h key
  have hexternal : (finished env i request reply s).external key =
      if key = stateKey request.rule then
        (s.external (stateKey request.rule)).finished env request.rule reply
      else s.external key := external_setExternal s _ key _
  have hofKey : (finished env i request reply s).ofKey key =
      (s.requests.set i { request with reply := some reply }).filter fun r =>
        stateKey r.rule = key := rfl
  rw [hexternal, hofKey]
  by_cases hkey : key = stateKey request.rule
  · subst hkey
    let p := fun r : Request => decide (stateKey r.rule = stateKey request.rule)
    have hp : p request = true := decide_eq_true rfl
    have hp' : p { request with reply := some reply } = true := decide_eq_true rfl
    have hset := filter_set hp hp' hreply hi hkeyInv.old
    rw [if_pos rfl, hset.2]
    refine ⟨hkeyInv.old, ?_, ?_⟩
    · refine ⟨fun hflight => (nomatch hflight), ?_⟩
      rintro ⟨r, hr, hnone⟩
      cases hr
      exact nomatch hnone
    · intro hon
      refine ⟨_, rfl, ?_⟩
      exact hon
  · let p := fun r : Request => decide (stateKey r.rule = key)
    have hp : p request = false := decide_eq_false (Ne.symm hkey)
    have hp' : p { request with reply := some reply } = false := decide_eq_false (Ne.symm hkey)
    have hset := filter_set_other hp hp' hi
    rw [if_neg hkey, hset]
    exact hkeyInv

/-! ### Runs -/

theorem inv_apply (at' : Option (Date × Time)) (h : Inv s) : Inv (apply q env at' s).1 := by
  unfold apply
  cases effectiveRule q env at' s.document with
  | none => exact h
  | some rule =>
    simp only
    split_ifs
    · exact h
    · exact h.congr rfl rfl
    have hrefresh : Inv (refreshExternalSources q env false s) := inv_refresh false h
    cases (refreshExternalSources q env false s).externalStates (stateKey rule) with
    | none => exact hrefresh
    | some state =>
      simp only
      split_ifs
      · exact hrefresh.congr rfl rfl
      · exact hrefresh

theorem inv_call {e : Event} {s' : State} {at' : Option (Date × Time)} (h : Inv s)
    (hcall : call s e = some (s', env, at')) : Inv s' := by
  cases e with
  | apply env at' =>
    obtain ⟨rfl, -⟩ := Prod.mk.inj (Option.some.inj hcall)
    exact h
  | finish env i reply =>
    cases hi : s.requests[i]? with
    | none =>
      simp only [call, hi] at hcall
      exact nomatch hcall
    | some request =>
      simp only [call, hi] at hcall
      split_ifs at hcall with hnone
      obtain ⟨rfl, -⟩ := Prod.mk.inj (Option.some.inj hcall)
      exact inv_finished h hi (Option.isNone_iff_eq_none.mp hnone)
  | edit document => exact nomatch hcall
  | settings settings => exact nomatch hcall
  | refresh env force => exact nomatch hcall

theorem inv_step (e : Event) (h : Inv s) : Inv (step q s e).1 := by
  unfold step
  cases hcall : call s e with
  | some c =>
    obtain ⟨s', env, at'⟩ := c
    exact inv_apply at' (inv_call h hcall)
  | none =>
    cases e with
    | edit document => exact h.congr rfl rfl
    | settings settings => exact h.congr rfl rfl
    | refresh env force => exact inv_refresh force h
    | apply env at' => exact h
    | finish env i reply => exact h

theorem inv_run (events : List Event) : ∀ {s : State}, Inv s → Inv (run q s events) := by
  induction events with
  | nil => exact fun h => h
  | cons e events ih => exact fun h => ih (inv_step e h)

/-! ### Fresh overrides -/

/-- The newest request for the source of an external rule whose overrides a step writes has
completed and reported on. -/
def Fresh (q : Qt) (s : State) (e : Event) : Prop :=
  ∀ rule writes, (step q s e).2 = some (rule, writes) → writes ≠ [] →
    rule.source.kind ≠ text "local" →
      ∃ request, (step q s e).1.requests.find?
          (fun request => SameSource request.rule.source rule.source) = some request ∧
        request.reportedOn = true

/-- The rule that would be applied has an active state that stands for its source: the newest
request under its key or for its source is both, and no other key starts a request for the
source now. -/
def Settled (q : Qt) (env : Env) (at' : Option (Date × Time)) (s : State) : Prop :=
  ∀ rule, effectiveRule q env at' s.document = some rule → rule.source.kind ≠ text "local" →
    (s.external (stateKey rule)).active = true →
      (∀ request, s.requests.find? (fun request => stateKey request.rule = stateKey rule ∨
          SameSource request.rule.source rule.source) = some request →
        stateKey request.rule = stateKey rule ∧ SameSource request.rule.source rule.source) ∧
      ∀ other ∈ load q env.refreshIds s.document, starts q env false s other = true →
        SameSource other.source rule.source → stateKey other = stateKey rule

theorem find?_of_imp {α : Type} {p p' : α → Bool} {l : List α} {a : α}
    (himp : ∀ x, p' x = true → p x = true) (h : l.find? p = some a) (ha : p' a = true) :
    l.find? p' = some a := by
  obtain ⟨-, before, after, rfl, hbefore⟩ := find?_eq_some_iff_append.mp h
  refine find?_eq_some_iff_append.mpr ⟨ha, before, after, rfl, fun x hx => ?_⟩
  have hx := hbefore x hx
  rw [Bool.not_eq_true'] at hx ⊢
  by_contra hp'
  rw [Bool.not_eq_false] at hp'
  rw [himp x hp'] at hx
  exact Bool.noConfusion hx

theorem active_before {key : QString} : ∀ (rules : List Rule) {s : State},
    ((rules.foldl (refreshOne q env false) s).external key).active = true →
      (s.external key).active = true := by
  intro rules
  induction rules with
  | nil => exact fun h => h
  | cons rule rules ih =>
    intro s h
    have hactive := ih h
    have hstep : RefreshOne q env false s rule (refreshOne q env false s rule) :=
      refreshOne_cases false rule
    cases hstep with
    | same hrequests hexternal hstarts => exact hexternal key ▸ hactive
    | missing state hrequests hexternal hidle hinFlight hoff hnext =>
      rw [hexternal] at hactive
      split_ifs at hactive
      · rw [hoff] at hactive
        exact Bool.noConfusion hactive
      · exact hactive
    | start state hrequests hexternal hidle hinFlight hoff hstarts =>
      rw [hexternal] at hactive
      split_ifs at hactive
      · rw [hoff] at hactive
        exact Bool.noConfusion hactive
      · exact hactive

theorem refreshSeconds_pos {uuids : Nat → QString} {document : Option Json} {rule : Rule}
    (h : rule ∈ load q uuids document) : 0 < rule.source.refreshSeconds := by
  have hrule := accepted (validate_of_mem_load h)
  exact Int.lt_of_lt_of_le (by decide) hrule.refreshSeconds.1

/-- An active state after a refresh stands for the newest request of the rule's source. -/
theorem newest_of_active {at' : Option (Date × Time)} {rule : Rule} (h : Inv s)
    (hsettled : Settled q env at' s) (hrule : effectiveRule q env at' s.document = some rule)
    (hkind : rule.source.kind ≠ text "local")
    (hactive : ((refreshExternalSources q env false s).external (stateKey rule)).active = true) :
    ∃ request, (refreshExternalSources q env false s).requests.find?
        (fun request => SameSource request.rule.source rule.source) = some request ∧
      request.reportedOn = true := by
  obtain ⟨hold, hnew⟩ := hsettled rule hrule hkind (active_before _ hactive)
  obtain ⟨new, hrequests, hfacts⟩ := requests_foldl (q := q) (s := s)
    (load q env.refreshIds s.document) fun r hr => refreshSeconds_pos hr
  have hinv := (inv_refresh false h : Inv (refreshExternalSources q env false s)) (stateKey rule)
  obtain ⟨on, hhead, hon⟩ := hinv.active hactive
  have hfound : (refreshExternalSources q env false s).requests.find?
      (fun request => stateKey request.rule = stateKey rule) = some on := by
    rw [← head?_filter]
    exact hhead
  let either := fun request : Request =>
    decide (stateKey request.rule = stateKey rule ∨ SameSource request.rule.source rule.source)
  have hkeyImp : ∀ x : Request, decide (stateKey x.rule = stateKey rule) = true →
      either x = true := fun x hx => decide_eq_true (Or.inl (of_decide_eq_true hx))
  have hsourceImp : ∀ x : Request, decide (SameSource x.rule.source rule.source) = true →
      either x = true := fun x hx => decide_eq_true (Or.inr (of_decide_eq_true hx))
  obtain ⟨newest, hnewest⟩ : ∃ newest,
      (refreshExternalSources q env false s).requests.find? either = some newest := by
    rw [← Option.isSome_iff_exists, find?_isSome]
    have hkey := find?_some hfound
    exact ⟨on, mem_of_find?_eq_some hfound, hkeyImp on hkey⟩
  have hboth : stateKey newest.rule = stateKey rule ∧
      (newest ∉ new → SameSource newest.rule.source rule.source) := by
    have hcase := hnewest
    rw [show (refreshExternalSources q env false s).requests = new ++ s.requests from hrequests,
      find?_append, Option.or_eq_some_iff] at hcase
    rcases hcase with hnow | ⟨-, hbefore⟩
    · have hmem := mem_of_find?_eq_some hnow
      obtain ⟨-, hload, hstarts⟩ := hfacts newest hmem
      refine ⟨?_, fun hnot => absurd hmem hnot⟩
      have heither : either newest = true := find?_some hnow
      rcases of_decide_eq_true heither with hkey | hsource
      · exact hkey
      · exact hnew _ hload hstarts hsource
    · exact ⟨(hold newest hbefore).1, fun _ => (hold newest hbefore).2⟩
  -- the newest of both kinds is the newest of the key, and has a reply
  have hkeyFound := find?_of_imp hkeyImp hnewest (decide_eq_true hboth.1)
  obtain rfl : newest = on := Option.some.inj (hkeyFound.symm.trans hfound)
  have hnot : newest ∉ new := by
    intro hmem
    unfold Request.reportedOn at hon
    rw [(hfacts newest hmem).1] at hon
    exact nomatch hon
  exact ⟨newest, find?_of_imp hsourceImp hnewest (decide_eq_true (hboth.2 hnot)), hon⟩

theorem apply_fresh {at' : Option (Date × Time)} (h : Inv s) (hsettled : Settled q env at' s)
    {rule : Rule} {writes : List Write} (happlied : (apply q env at' s).2 = some (rule, writes))
    (hkind : rule.source.kind ≠ text "local") :
    ∃ request, (apply q env at' s).1.requests.find?
        (fun request => SameSource request.rule.source rule.source) = some request ∧
      request.reportedOn = true := by
  unfold apply at happlied ⊢
  cases hrule : effectiveRule q env at' s.document with
  | none =>
    rw [hrule] at happlied
    exact nomatch happlied
  | some best =>
    rw [hrule] at happlied
    simp only at happlied ⊢
    split_ifs at happlied ⊢ with hid hlocal
    · obtain ⟨rfl, -⟩ := Prod.mk.inj (Option.some.inj happlied)
      exact absurd hlocal hkind
    cases hstate : (refreshExternalSources q env false s).externalStates (stateKey best) with
    | none =>
      rw [hstate] at happlied
      exact nomatch happlied
    | some state =>
      rw [hstate] at happlied
      simp only at happlied ⊢
      split_ifs at happlied ⊢ with hon
      obtain ⟨rfl, -⟩ := Prod.mk.inj (Option.some.inj happlied)
      refine newest_of_active h hsettled hrule hkind ?_
      rw [State.external, hstate]
      exact hon

/-- Every call of `apply` in a run is made when the state of its rule stands for the source
that the rule has. -/
def Meets (q : Qt) (s : State) (e : Event) : Prop :=
  ∀ s' env at', call s e = some (s', env, at') → Settled q env at' s'

theorem fresh_step {e : Event} (h : Inv s) (hmeets : Meets q s e) : Fresh q s e := by
  intro rule writes happlied hwrites hkind
  unfold step at happlied ⊢
  cases hcall : call s e with
  | some c =>
    obtain ⟨s', env, at'⟩ := c
    rw [hcall] at happlied
    exact apply_fresh (inv_call h hcall) (hmeets s' env at' hcall) happlied hkind
  | none =>
    rw [hcall] at happlied
    cases e <;> exact nomatch happlied

/-- In a run whose calls of `apply` are all made in settled states, every override of an
external rule is fresh. -/
theorem overrides_fresh (q : Qt) (document : Option Json) (settings : Settings)
    (events : List Event)
    (hmeets : ∀ before e after, events = before ++ e :: after →
      Meets q (run q { document := document, settings := settings } before) e) :
    ∀ before e after, events = before ++ e :: after →
      Fresh q (run q { document := document, settings := settings } before) e := by
  intro before e after hevents
  exact fresh_step (inv_run before (inv_initial document settings))
    (hmeets before e after hevents)

/-! ### A rule whose source is edited -/

def plainUrl (s : QString) : Option Url :=
  match s.dropPrefix? (text "https://") with
  | some host =>
    if host ≠ [] ∧ host.all fun c => isLower c || c = 46 then
      some ⟨text "https", host, [], [], [], [], -1, []⟩
    else none
  | none => none

def homeQt : Qt := { plainQt with url := plainUrl }

def asking (address theme : String) : Rule :=
  { id := text "lamp"
    label := text "Lamp"
    values := SortedMap.empty.insert (text "theme") (text theme)
    source :=
      { kind := text "https-api"
        url := text address
        credentialRef := text "os-vault://scheduled-settings/lamp" } }

def askingDocument (address theme : String) : Option Json :=
  (save homeQt [asking address theme]).toOption

def noon : Env where
  now := 0
  current := some (⟨2026, 1, 5, by decide⟩, Time.of 12 0 0)
  secret _ := true
  ruleIds _ := []
  refreshIds _ := []

def yes : Reply where
  noError := true
  redirect := false
  size := 15
  contentType := text "application/json"
  body := some (.obj [(text "active", .bool true)])

def asked : List Event :=
  [.edit (askingDocument "https://one.example" "dark"), .refresh noon true]

theorem meets_asked : ∀ before e after, asked ++ [.finish noon 0 yes] = before ++ e :: after →
    Meets homeQt (run homeQt {} before) e := by
  intro before e after hevents s' env at' hcall
  rcases before with _ | ⟨e₁, _ | ⟨e₂, _ | ⟨e₃, rest⟩⟩⟩
  · obtain rfl := (List.cons.inj hevents).1
    exact nomatch hcall
  · obtain rfl := (List.cons.inj (List.cons.inj hevents).2).1
    exact nomatch hcall
  · obtain ⟨rfl, hmore⟩ := List.cons.inj hevents
    obtain ⟨rfl, hlast⟩ := List.cons.inj hmore
    obtain rfl := (List.cons.inj hlast).1
    have hstate : call (run homeQt {} asked) (.finish noon 0 yes) =
        some (finished noon 0 { rule := asking "https://one.example" "dark" } yes
          (run homeQt {} asked), noon, noon.current) := by
      have hrequest : ((run homeQt {} asked).requests.map fun r => (r.rule, r.reply.isNone)) =
          [(asking "https://one.example" "dark", true)] := by decide +kernel
      obtain ⟨request, hrequests, hone⟩ := map_eq_singleton_iff.mp hrequest
      obtain ⟨rule, reply⟩ := request
      obtain ⟨rfl, hnone⟩ := Prod.mk.inj hone
      obtain rfl := Option.isNone_iff_eq_none.mp hnone
      unfold call
      rw [hrequests]
      rfl
    have hcall := Option.some.inj (hstate.symm.trans hcall)
    obtain ⟨rfl, hrest⟩ := Prod.mk.inj hcall
    cases hrest
    intro rule hrule hkind hactive
    have hbest : effectiveRule homeQt noon noon.current (run homeQt {} asked).document =
        some (asking "https://one.example" "dark") := by decide +kernel
    obtain rfl := Option.some.inj (hbest.symm.trans hrule)
    refine ⟨fun request hfind => ?_, fun other hother _ _ => ?_⟩
    · have hall : ∀ request ∈ (finished noon 0 { rule := asking "https://one.example" "dark" } yes
          (run homeQt {} asked)).requests,
          stateKey request.rule = stateKey (asking "https://one.example" "dark") ∧
            SameSource request.rule.source (asking "https://one.example" "dark").source := by
        decide +kernel
      exact hall request (mem_of_find?_eq_some hfind)
    · have hall : ∀ other ∈ load homeQt noon.refreshIds (run homeQt {} asked).document,
          stateKey other = stateKey (asking "https://one.example" "dark") := by decide +kernel
      exact hall other hother
  · have hnil := (List.cons.inj (List.cons.inj (List.cons.inj hevents).2).2).2
    exact absurd hnil.symm (append_ne_nil_of_right_ne_nil rest (cons_ne_nil e after))

theorem overrides_fresh_asked :
    (∀ before e after, asked ++ [.finish noon 0 yes] = before ++ e :: after →
      Meets homeQt (run homeQt {} before) e) ∧
    Fresh homeQt (run homeQt {} asked) (.finish noon 0 yes) :=
  ⟨meets_asked, overrides_fresh homeQt none {} (asked ++ [.finish noon 0 yes]) meets_asked asked
    _ []
    rfl⟩

/-- The rule asks at one address, is edited to ask at another while the reply is on its way,
and is applied when the reply of the first address comes. -/
def edited : List Event :=
  asked ++ [.edit (askingDocument "https://two.example" "light")]

theorem edited_applied : (step homeQt (run homeQt {} edited) (.finish noon 0 yes)).2 =
    some (asking "https://two.example" "light", [.useDarkTheme 0]) := by
  decide +kernel

theorem edited_stale : ¬ Fresh homeQt (run homeQt {} edited) (.finish noon 0 yes) := by
  intro h
  obtain ⟨request, hfind, -⟩ := h _ _ edited_applied (by decide) (by decide)
  have hnone : ((step homeQt (run homeQt {} edited) (.finish noon 0 yes)).1.requests.find? fun
      request => SameSource request.rule.source
        (asking "https://two.example" "light").source).isNone
      = true := by
    decide +kernel
  rw [hfind] at hnone
  exact nomatch hnone

end Sandboxie.Schedule
