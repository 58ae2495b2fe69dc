import Sandboxie.Plus.ScheduledRoundTrip

/-!
# The bounds of a stored rule

A bound of a stored rule that cannot be read is left open.  The others still hold: a rule that
is loaded matches at no time that a bound of its document excludes.
-/

namespace Sandboxie.Schedule

open List

variable {q : Qt}

/-! ### Bounds -/

/-- The bounds of a stored rule that are well formed. -/
structure Bounds where
  startDate : Option Date
  endDate : Option Date
  startTime : Option Time
  endTime : Option Time
  weekdays : List Int

def wellFormedDays (weekdays : List Json) : List Int :=
  (weekdays.map fun v => Json.toInt (some v) 0).filter fun day => 1 ≤ day ∧ day ≤ 7

def storedBounds (q : Qt) (o : Json.Object) : Bounds where
  startDate := q.parseDate (Json.toStr (o.value (text "startDate")) [])
  endDate := q.parseDate (Json.toStr (o.value (text "endDate")) [])
  startTime := q.parseTime (Json.toStr (o.value (text "startTime")) [])
  endTime := q.parseTime (Json.toStr (o.value (text "endTime")) [])
  weekdays := wellFormedDays (Json.toArray (o.value (text "weekdays")))

/-- The times go over midnight, which takes both of them. -/
def Bounds.CrossMidnight (b : Bounds) : Prop :=
  ∃ start ∈ b.startTime, ∃ finish ∈ b.endTime, finish < start

/-- The day that a time belongs to: the hours after midnight are the night of the day
before. -/
def Bounds.IsDay (b : Bounds) (today : Date) (time : Time) (date : Date) : Prop :=
  (b.CrossMidnight ∧ (∃ start ∈ b.startTime, time < start) ∧ date = today.previous) ∨
    (¬ (b.CrossMidnight ∧ ∃ start ∈ b.startTime, time < start) ∧ date = today)

/-- One of the bounds excludes a time of a day. -/
inductive Bounds.Excludes (b : Bounds) (today : Date) (time : Time) : Prop
  | startDate (date d : Date) (hday : b.IsDay today time date) (hd : d ∈ b.startDate)
      (h : date.julianDay < d.julianDay)
  | endDate (date d : Date) (hday : b.IsDay today time date) (hd : d ∈ b.endDate)
      (h : d.julianDay < date.julianDay)
  | weekdays (date : Date) (hday : b.IsDay today time date) (hsome : b.weekdays ≠ [])
      (h : date.dayOfWeek ∉ b.weekdays)
  | startTime (start : Time) (hcross : ¬ b.CrossMidnight) (hstart : start ∈ b.startTime)
      (h : time < start)
  | endTime (finish : Time) (hcross : ¬ b.CrossMidnight) (hfinish : finish ∈ b.endTime)
      (h : finish < time)
  | between (start finish : Time) (hcross : finish < start) (hstart : start ∈ b.startTime)
      (hfinish : finish ∈ b.endTime) (hlow : finish < time) (hhigh : time < start)

/-! ### A loaded rule keeps to them -/

theorem mem_readDays {day : Int} : ∀ {values : List Json} {days : List Int},
    day ∈ readDays values days ↔ day ∈ days ∨ day ∈ wellFormedDays values := by
  intro values
  induction values with
  | nil => exact fun {days} => ⟨.inl, fun h => h.resolve_right not_mem_nil⟩
  | cons v more ih =>
    intro days
    have hcons : wellFormedDays (v :: more) =
        if 1 ≤ Json.toInt (some v) 0 ∧ Json.toInt (some v) 0 ≤ 7 then
          Json.toInt (some v) 0 :: wellFormedDays more
        else wellFormedDays more := by
      unfold wellFormedDays
      rw [map_cons, filter_cons]
      simp only [decide_eq_true_eq]
    rw [hcons, readDays]
    generalize Json.toInt (some v) 0 = n
    by_cases hn : 1 ≤ n ∧ n ≤ 7
    · rw [if_pos hn]
      by_cases hmem : n ∈ days
      · rw [if_neg fun h => h.2.2 hmem, ih, mem_cons]
        constructor
        · exact fun h => h.imp_right .inr
        · rintro (h | rfl | h)
          · exact .inl h
          · exact .inl hmem
          · exact .inr h
      · rw [if_pos ⟨hn.1, hn.2, hmem⟩, ih, mem_append, mem_singleton, mem_cons,
          or_assoc]
    · rw [if_neg hn, if_neg fun h => hn ⟨h.1, h.2.1⟩, ih]

theorem msecs_lt {t t' : Time} : msecs (some t) < msecs (some t') ↔ t < t' := by
  show (t.val : Int) < t'.val ↔ t < t'
  rw [Int.ofNat_lt, Fin.lt_def]

/-- The times of a loaded rule. -/
structure Loaded (b : Bounds) (rule : Rule) : Prop where
  startDate : rule.startDate = b.startDate
  endDate : rule.endDate = b.endDate
  startTime : rule.startTime = some (b.startTime.getD (Time.of 0 0 0))
  endTime : rule.endTime = some (b.endTime.getD (Time.of 23 59 59))
  weekdays : ∀ day, day ∈ rule.weekdays ↔ day ∈ b.weekdays
  whole : ∀ start ∈ b.startTime, start.val % 1000 = 0

theorem loaded_fromJson (hq : q.Documented) (uuid : QString) (o : Json.Object) :
    Loaded (storedBounds q o) (fromJson q uuid o) := by
  have hgetD : ∀ (t : Option Time) (d : Time),
      (if t.isSome then t else some d) = some (t.getD d) := by
    intro t d
    cases t <;> rfl
  refine ⟨rfl, rfl, hgetD _ _, hgetD _ _, ?_, fun start h => hq.parseTime_whole _ start h⟩
  intro day
  exact mem_readDays.trans ⟨fun h => h.resolve_left not_mem_nil, .inr⟩

section Loaded

variable {b : Bounds} {rule : Rule}

theorem crosses_iff (h : Loaded b rule) :
    msecs rule.endTime < msecs rule.startTime ↔ b.CrossMidnight := by
  rw [h.startTime, h.endTime, msecs_lt]
  constructor
  · intro hlt
    cases hstart : b.startTime with
    | none =>
      rw [hstart] at hlt
      exact absurd hlt (Nat.not_lt_zero _)
    | some start =>
      cases hfinish : b.endTime with
      | none =>
        rw [hstart, hfinish] at hlt
        have hwhole := h.whole start hstart
        have hbound := start.isLt
        have hlast : (86399000 : Nat) < start.val := hlt
        omega
      | some finish =>
        rw [hstart, hfinish] at hlt
        exact ⟨start, hstart, finish, hfinish, hlt⟩
  · rintro ⟨start, hstart, finish, hfinish, hlt⟩
    rw [Option.mem_def.mp hstart, Option.mem_def.mp hfinish]
    exact hlt

/-- The day that `matches` looks at. -/
def Rule.day (rule : Rule) (today : Date) (time : Time) : Date :=
  if msecs rule.endTime < msecs rule.startTime ∧ (time.val : Int) < msecs rule.startTime then
    today.previous
  else today

theorem day_eq {today date : Date} {time : Time} (h : Loaded b rule)
    (hday : b.IsDay today time date) : rule.day today time = date := by
  have hbefore : (b.CrossMidnight ∧ ∃ start ∈ b.startTime, time < start) ↔
      msecs rule.endTime < msecs rule.startTime ∧ (time.val : Int) < msecs rule.startTime := by
    rw [crosses_iff h]
    refine and_congr_right fun hcross => ?_
    obtain ⟨start, hstart, -⟩ := hcross
    rw [h.startTime, Option.mem_def.mp hstart]
    constructor
    · rintro ⟨start', hstart', hlt⟩
      cases hstart'
      exact Int.ofNat_lt.mpr hlt
    · exact fun hlt => ⟨start, rfl, Int.ofNat_lt.mp hlt⟩
  unfold Rule.day
  rcases hday with ⟨hcross, hlt, rfl⟩ | ⟨hnot, rfl⟩
  · rw [if_pos (hbefore.mp ⟨hcross, hlt⟩)]
  · rw [if_neg fun hand => hnot (hbefore.mpr hand)]

theorem matchesAt_bounds {today : Date} {time : Time}
    (h : rule.matchesAt (some (today, time)) = true) :
    (∀ d ∈ rule.startDate, d.julianDay ≤ (rule.day today time).julianDay) ∧
    (∀ d ∈ rule.endDate, (rule.day today time).julianDay ≤ d.julianDay) ∧
    (rule.weekdays ≠ [] → (rule.day today time).dayOfWeek ∈ rule.weekdays) ∧
    (if msecs rule.endTime < msecs rule.startTime then
      msecs rule.startTime ≤ time.val ∨ (time.val : Int) ≤ msecs rule.endTime
    else msecs rule.startTime ≤ time.val ∧ (time.val : Int) ≤ msecs rule.endTime) := by
  have hmatch : (if rule.enabled = false then false
      else if rule.startDate.any fun d => (rule.day today time).julianDay < d.julianDay then false
      else if rule.endDate.any fun d => d.julianDay < (rule.day today time).julianDay then false
      else if rule.weekdays ≠ [] ∧ (rule.day today time).dayOfWeek ∉ rule.weekdays then false
      else if msecs rule.endTime < msecs rule.startTime then
        msecs rule.startTime ≤ time.val || (time.val : Int) ≤ msecs rule.endTime
      else msecs rule.startTime ≤ time.val && (time.val : Int) ≤ msecs rule.endTime) = true := h
  rw [ite_eq_iff, ite_eq_iff, ite_eq_iff, ite_eq_iff] at hmatch
  obtain ⟨-, hmatch⟩ := hmatch.resolve_left fun h => Bool.noConfusion h.2
  obtain ⟨hstart, hmatch⟩ := hmatch.resolve_left fun h => Bool.noConfusion h.2
  obtain ⟨hend, hmatch⟩ := hmatch.resolve_left fun h => Bool.noConfusion h.2
  obtain ⟨hdays, hmatch⟩ := hmatch.resolve_left fun h => Bool.noConfusion h.2
  refine ⟨?_, ?_, ?_, ?_⟩
  · intro d hd
    rw [Option.mem_def.mp hd] at hstart
    simpa using hstart
  · intro d hd
    rw [Option.mem_def.mp hd] at hend
    simpa using hend
  · intro hsome
    by_contra hnot
    exact hdays ⟨hsome, hnot⟩
  · split_ifs at hmatch ⊢
    · simpa using hmatch
    · simpa using hmatch

theorem not_excludes {today : Date} {time : Time} (h : Loaded b rule)
    (hmatch : rule.matchesAt (some (today, time)) = true) : ¬ b.Excludes today time := by
  obtain ⟨hstartDate, hendDate, hweekdays, htimes⟩ := matchesAt_bounds hmatch
  intro hexcl
  cases hexcl with
  | startDate date d hday hd hlt =>
    rw [day_eq h hday, h.startDate] at hstartDate
    exact absurd (hstartDate d hd) (not_le.mpr hlt)
  | endDate date d hday hd hlt =>
    rw [day_eq h hday, h.endDate] at hendDate
    exact absurd (hendDate d hd) (not_le.mpr hlt)
  | weekdays date hday hsome hnot =>
    rw [day_eq h hday, h.weekdays] at hweekdays
    refine hnot (hweekdays fun hnil => hsome ?_)
    refine eq_nil_iff_forall_not_mem.mpr fun day hmem => ?_
    rw [← h.weekdays, hnil] at hmem
    exact not_mem_nil hmem
  | startTime start hcross hstart hlt =>
    rw [if_neg fun hlt => hcross ((crosses_iff h).mp hlt), h.startTime,
      Option.mem_def.mp hstart] at htimes
    have hle : start.val ≤ time.val := Int.ofNat_le.mp htimes.1
    exact absurd hlt (not_lt.mpr hle)
  | endTime finish hcross hfinish hlt =>
    rw [if_neg fun hlt => hcross ((crosses_iff h).mp hlt), h.endTime,
      Option.mem_def.mp hfinish] at htimes
    have hle : time.val ≤ finish.val := Int.ofNat_le.mp htimes.2
    exact absurd hlt (not_lt.mpr hle)
  | between start finish hcross hstart hfinish hlow hhigh =>
    rw [if_pos ((crosses_iff h).mpr ⟨start, hstart, finish, hfinish, hcross⟩), h.startTime,
      h.endTime, Option.mem_def.mp hstart, Option.mem_def.mp hfinish] at htimes
    rcases htimes with hle | hle
    · exact absurd hhigh (not_lt.mpr (Int.ofNat_le.mp hle : start.val ≤ time.val))
    · exact absurd hlow (not_lt.mpr (Int.ofNat_le.mp hle : time.val ≤ finish.val))

end Loaded

theorem mem_loadRules {uuids : Nat → QString} {r : Rule} : ∀ {values : List Json} {n : Nat},
    r ∈ loadRules q uuids n values → ∃ o uuid, .obj o ∈ values ∧ r = fromJson q uuid o := by
  intro values
  induction values with
  | nil => exact fun h => absurd h not_mem_nil
  | cons v more ih =>
    intro n h
    have hmore : ∀ {m}, r ∈ loadRules q uuids m more →
        ∃ o uuid, .obj o ∈ v :: more ∧ r = fromJson q uuid o := by
      intro m hm
      obtain ⟨o, uuid, ho, hr⟩ := ih hm
      exact ⟨o, uuid, mem_cons_of_mem v ho, hr⟩
    cases v with
    | obj o =>
      simp only [loadRules] at h
      split at h
      · rcases mem_cons.mp h with rfl | h
        · exact ⟨o, _, mem_cons_self, rfl⟩
        · exact hmore h
      · exact hmore h
    | _ => exact hmore h

theorem validate_of_mem_loadRules {uuids : Nat → QString} {r : Rule} :
    ∀ {values : List Json} {n : Nat}, r ∈ loadRules q uuids n values → validate q r = [] := by
  intro values
  induction values with
  | nil => exact fun h => absurd h not_mem_nil
  | cons v more ih =>
    intro n h
    cases v with
    | obj o =>
      simp only [loadRules] at h
      split at h
      · rename_i hvalid
        rcases mem_cons.mp h with rfl | h
        · exact hvalid
        · exact ih h
      · exact ih h
    | _ => exact ih h

theorem validate_of_mem_load {uuids : Nat → QString} {document : Option Json} {r : Rule}
    (h : r ∈ load q uuids document) : validate q r = [] :=
  validate_of_mem_loadRules h

/-! ### Storing and loading -/

/-- Rules that are saved come back unchanged when they are `Exact`, and only then.  A rule
that is loaded is one that is stored, and matches at no time that a well-formed bound of it
excludes. -/
theorem schedule_kept (hq : q.Documented) :
    (∀ rules : List Rule, (∀ r ∈ rules, validate q r = []) →
      ∃ document, save q rules = .ok document ∧ ∀ uuids,
        (load q uuids (some document) = rules ↔ ∀ r ∈ rules, r.Exact)) ∧
    ∀ uuids document, ∀ r ∈ load q uuids document,
      ∃ o uuid, .obj o ∈ storedRules document ∧ r = fromJson q uuid o ∧
        ∀ today time, r.matchesAt (some (today, time)) = true →
          ¬ (storedBounds q o).Excludes today time := by
  refine ⟨fun rules hrules => ?_, fun uuids document r hr => ?_⟩
  · obtain ⟨document, hsave, hstored⟩ := save_eq_ok hrules
    refine ⟨document, hsave, fun uuids => ?_⟩
    rw [load, hstored, loadRules_map hq uuids rules 0 hrules]
    exact map_stored_eq_iff
  · obtain ⟨o, uuid, ho, rfl⟩ := mem_loadRules hr
    exact ⟨o, uuid, ho, rfl, fun _ _ => not_excludes (loaded_fromJson hq uuid o)⟩

/-! ### A Qt -/

def number (s : QString) : Option Nat :=
  if s.all isDigit then some (s.foldl (fun n c => 10 * n + (c - 48)) 0) else none

def plainDate : QString → Option Date
  | [a, b, c, d, p, e, f, r, g, h] =>
    if p = 45 ∧ r = 45 then
      match number [a, b, c, d], number [e, f], number [g, h] with
      | some year, some month, some day =>
        if hvalid : validDate year month day = true then some ⟨year, month, day, hvalid⟩
        else none
      | _, _, _ => none
    else none
  | _ => none

def plainTime : QString → Option Time
  | [a, b, p, c, d, r, e, f] =>
    if p = 58 ∧ r = 58 then
      match number [a, b], number [c, d], number [e, f] with
      | some hour, some minute, some second =>
        if hour < 24 ∧ minute < 60 ∧ second < 60 then some (Time.of hour minute second) else none
      | _, _, _ => none
    else none
  | _ => none

def plainQt : Qt where
  isSpace c := c = 32
  isColor _ := false
  url _ := none
  parseDate := plainDate
  parseTime := plainTime

theorem isDigit_digit (n : Nat) : isDigit (48 + n % 10) = true := by
  have hlow : (48 : Nat) ≤ 48 + n % 10 := by omega
  have hhigh : 48 + n % 10 ≤ (57 : Nat) := by omega
  unfold isDigit
  rw [Bool.and_eq_true, decide_eq_true_eq, decide_eq_true_eq]
  exact ⟨hlow, hhigh⟩

theorem number_two {n : Nat} (h : n < 100) : number [48 + n / 10 % 10, 48 + n % 10] = some n := by
  simp only [number, all_cons, all_nil, isDigit_digit, Bool.and_self, if_true,
    foldl_cons, foldl_nil, Option.some.injEq]
  omega

theorem number_four {n : Nat} (h : n < 10000) :
    number [48 + n / 10 / 10 / 10 % 10, 48 + n / 10 / 10 % 10, 48 + n / 10 % 10, 48 + n % 10] =
      some n := by
  simp only [number, all_cons, all_nil, isDigit_digit, Bool.and_self, if_true,
    foldl_cons, foldl_nil, Option.some.injEq]
  omega

theorem daysInMonth_le (year : Int) (month : Nat) : daysInMonth year month ≤ 31 := by
  unfold daysInMonth
  split_ifs <;> decide

theorem plainDate_isoDate (d : Date) (hlow : 0 ≤ d.year) (hhigh : d.year ≤ 9999) :
    plainDate (isoDate d) = some d := by
  obtain ⟨year, month, day, hvalid⟩ := d
  have hlast := daysInMonth_le year month
  have hparts := hvalid
  simp only [validDate, Bool.and_eq_true, decide_eq_true_eq] at hparts
  obtain ⟨n, rfl⟩ := Int.eq_ofNat_of_zero_le hlow
  have hn : n ≤ 9999 := Int.ofNat_le.mp hhigh
  unfold isoDate
  rw [if_pos ⟨hlow, hhigh⟩]
  simp only [digits, nil_append, cons_append, plainDate, Int.toNat_natCast]
  rw [number_four (by omega), number_two (by omega), number_two (by omega)]
  exact dif_pos hvalid

theorem plainTime_timeText (t : Time) : plainTime (timeText t) = some t.whole := by
  have hbound := t.isLt
  unfold timeText
  simp only [digits, nil_append, cons_append, plainTime]
  rw [number_two (by omega), number_two (by omega), number_two (by omega)]
  simp only [and_self, if_true]
  rw [if_pos (by omega), Option.some.injEq, Fin.ext_iff]
  show ((t.val / 3600000 * 3600 + t.val / 60000 % 60 * 60 + t.val / 1000 % 60) * 1000) %
    86400000 = t.val / 1000 * 1000
  omega

theorem plainTime_whole (s : QString) (t : Time) (h : plainTime s = some t) :
    t.val % 1000 = 0 := by
  unfold plainTime at h
  split at h
  · split at h
    · split at h
      · split at h
        · rw [← Option.some.inj h]
          show _ * 1000 % 86400000 % 1000 = 0
          omega
        · exact nomatch h
      · exact nomatch h
    · exact nomatch h
  · exact nomatch h

theorem plainQt_documented : plainQt.Documented :=
  ⟨plainDate_isoDate, rfl, plainTime_timeText, plainTime_whole⟩

def mondays : Rule :=
  { id := text "mondays", label := text "Mondays", weekdays := [1], endTime := some (Fin.last _) }

theorem schedule_kept_mondays : plainQt.Documented ∧ validate plainQt mondays = [] ∧
    (∃ document, save plainQt [mondays] = .ok document ∧ ∀ uuids,
      (load plainQt uuids (some document) = [mondays] ↔ ∀ r ∈ [mondays], r.Exact)) := by
  have hvalid : validate plainQt mondays = [] := by decide
  refine ⟨plainQt_documented, hvalid, (schedule_kept plainQt_documented).1 [mondays] ?_⟩
  intro r hr
  rw [mem_singleton.mp hr]
  exact hvalid

/-- The end of the last second of the day is not stored. -/
theorem mondays_change : ∃ document, save plainQt [mondays] = .ok document ∧
    ∀ uuids, load plainQt uuids (some document) ≠ [mondays] := by
  have hvalid : ∀ r ∈ [mondays], validate plainQt r = [] := by decide
  obtain ⟨document, hsave, hstored⟩ := save_eq_ok hvalid
  refine ⟨document, hsave, fun uuids h => ?_⟩
  rw [load, hstored, loadRules_map plainQt_documented uuids _ 0 hvalid] at h
  have hexact := map_stored_eq_iff.mp h mondays mem_cons_self
  exact absurd (hexact.endTime _ rfl) (by decide)

end Sandboxie.Schedule
