import Mathlib.Data.List.Lex
import Mathlib.Data.Prod.Lex
import Sandboxie.Lib.KeepBest
import Sandboxie.Plus.ScheduleSources
import Sandboxie.Plus.ScheduledBounds

/-!
# The windows of a rule, and the rule that is effective

A rule lays a closed window over each of its days.  Where the start time is after the end time
the window goes on into the next day, and the hours after midnight belong to the day before.
Of the rules that match, the effective one has the highest priority and then the lowest
identifier; rules that share both are told apart by their order only.
-/

namespace Sandboxie.Schedule

open List

variable {q : Qt}

/-! ### Days -/

def yearNumber (year : Int) : Int := if year < 0 then year + 1 else year

/-- `QDate::toJulianDay`, from the number of the year. -/
def julian (y month day : Int) : Int :=
  let a := (14 - month) / 12
  let y := y + 4800 - a
  day + (153 * (month + 12 * a - 3) + 2) / 5 + 365 * y + y / 4 - y / 100 + y / 400 - 32045

theorem julianDay_eq (d : Date) : d.julianDay = julian (yearNumber d.year) d.month d.day := rfl

theorem isLeap_iff {year : Int} (hyear : year ≠ 0) :
    isLeap year = true ↔ yearNumber year % 4 = 0 ∧
      (yearNumber year % 100 ≠ 0 ∨ yearNumber year % 400 = 0) := by
  have hless : year < 1 ↔ year < 0 := by omega
  unfold isLeap yearNumber
  simp only [hless, Bool.and_eq_true, Bool.or_eq_true, decide_eq_true_eq]

theorem julian_month {year : Int} {month : Nat} (hyear : year ≠ 0) (hlow : 1 < month)
    (hhigh : month ≤ 12) :
    julian (yearNumber year) ((month - 1 : Nat) : Int) (daysInMonth year (month - 1)) =
      julian (yearNumber year) month 1 - 1 := by
  have hleap := isLeap_iff hyear
  generalize yearNumber year = y at hleap ⊢
  have hcases : month = 2 ∨ month = 3 ∨ month = 4 ∨ month = 5 ∨ month = 6 ∨ month = 7 ∨
      month = 8 ∨ month = 9 ∨ month = 10 ∨ month = 11 ∨ month = 12 := by omega
  by_cases hmarch : month = 3
  · -- the length of February
    subst hmarch
    show julian y 2 ((if isLeap year then 29 else 28 : Nat) : Int) = julian y 3 1 - 1
    by_cases h : isLeap year = true
    · have hy := hleap.mp h
      rw [if_pos h]
      simp only [julian]
      omega
    · have hy := mt hleap.mpr h
      rw [if_neg h]
      simp only [julian]
      omega
  · have hdays : daysInMonth year (month - 1) =
        if month = 5 ∨ month = 7 ∨ month = 10 ∨ month = 12 then 30 else 31 := by
      rcases hcases with rfl | rfl | rfl | rfl | rfl | rfl | rfl | rfl | rfl | rfl | rfl <;>
        first | rfl | exact absurd rfl hmarch
    rw [hdays]
    rcases hcases with rfl | rfl | rfl | rfl | rfl | rfl | rfl | rfl | rfl | rfl | rfl <;>
      first | exact absurd rfl hmarch | (simp [julian]; omega)

theorem julian_year (y : Int) : julian (y - 1) 12 31 = julian y 1 1 - 1 := by
  simp only [julian]
  omega

theorem julianDay_previous (d : Date) : d.previous.julianDay = d.julianDay - 1 := by
  obtain ⟨year, month, day, hvalid⟩ := d
  have hparts := hvalid
  simp only [validDate, Bool.and_eq_true, decide_eq_true_eq] at hparts
  obtain ⟨⟨⟨⟨hyear, hlow⟩, hhigh⟩, hday⟩, -⟩ := hparts
  rw [julianDay_eq, julianDay_eq]
  unfold Date.previous
  by_cases hfirst : 1 < day
  · rw [dif_pos hfirst]
    simp only [julian]
    omega
  rw [dif_neg hfirst]
  obtain rfl : day = 1 := by omega
  by_cases hmonth : 1 < month
  · rw [dif_pos hmonth]
    exact julian_month hyear hmonth hhigh
  rw [dif_neg hmonth]
  obtain rfl : month = 1 := by omega
  have hnumber : yearNumber (if year = 1 then -1 else year - 1) = yearNumber year - 1 := by
    unfold yearNumber
    split_ifs <;> omega
  show julian (yearNumber (if year = 1 then -1 else year - 1)) 12 31 = _
  rw [hnumber]
  exact julian_year _

/-! ### Windows -/

def instant (day : Int) (time : Time) : Int := day * 86400000 + time.val

/-- The day is within the date bounds of the rule, and one of its weekdays. -/
def Rule.HasDay (rule : Rule) (d : Date) : Prop :=
  (∀ start ∈ rule.startDate, start.julianDay ≤ d.julianDay) ∧
  (∀ finish ∈ rule.endDate, d.julianDay ≤ finish.julianDay) ∧
  (rule.weekdays = [] ∨ d.dayOfWeek ∈ rule.weekdays)

/-- The window that starts on the day `d` has a time of the day `today` in it. -/
def Rule.Covers (rule : Rule) (d today : Date) (time : Time) : Prop :=
  ∃ start ∈ rule.startTime, ∃ finish ∈ rule.endTime,
    instant d.julianDay start ≤ instant today.julianDay time ∧
    instant today.julianDay time ≤
      instant (if finish < start then d.julianDay + 1 else d.julianDay) finish

variable {rule : Rule}

theorem Rule.hasDay_congr {d d' : Date} (h : d.julianDay = d'.julianDay) :
    rule.HasDay d ↔ rule.HasDay d' := by
  unfold Rule.HasDay Date.dayOfWeek
  rw [h]

theorem matchesAt_iff (rule : Rule) (today : Date) (time : Time) :
    rule.matchesAt (some (today, time)) = true ↔
      rule.enabled = true ∧ rule.HasDay (rule.day today time) ∧
      if msecs rule.endTime < msecs rule.startTime then
        msecs rule.startTime ≤ time.val ∨ (time.val : Int) ≤ msecs rule.endTime
      else msecs rule.startTime ≤ time.val ∧ (time.val : Int) ≤ msecs rule.endTime := by
  constructor
  · intro h
    obtain ⟨hstart, hend, hdays, htimes⟩ := matchesAt_bounds h
    refine ⟨?_, ⟨hstart, hend, ?_⟩, htimes⟩
    · by_contra hoff
      rw [Rule.matchesAt] at h
      simp [hoff] at h
    · by_cases hnil : rule.weekdays = []
      · exact Or.inl hnil
      · exact Or.inr (hdays hnil)
  · rintro ⟨hon, ⟨hstart, hend, hdays⟩, htimes⟩
    show (if rule.enabled = false then false
      else if rule.startDate.any fun d => (rule.day today time).julianDay < d.julianDay then false
      else if rule.endDate.any fun d => d.julianDay < (rule.day today time).julianDay then false
      else if rule.weekdays ≠ [] ∧ (rule.day today time).dayOfWeek ∉ rule.weekdays then false
      else if msecs rule.endTime < msecs rule.startTime then
        msecs rule.startTime ≤ time.val || (time.val : Int) ≤ msecs rule.endTime
      else msecs rule.startTime ≤ time.val && (time.val : Int) ≤ msecs rule.endTime) = true
    rw [if_neg (by simp [hon]), if_neg ?_, if_neg ?_, if_neg ?_]
    · split_ifs at htimes ⊢
      · simpa using htimes
      · simpa using htimes
    · rintro ⟨hnil, hnot⟩
      exact hdays.elim hnil hnot
    · cases hd : rule.endDate with
      | none => simp
      | some d => simpa using hend d hd
    · cases hd : rule.startDate with
      | none => simp
      | some d => simpa using hstart d hd

theorem day_of_before (rule : Rule) (today : Date) (time : Time)
    (h : msecs rule.endTime < msecs rule.startTime ∧ (time.val : Int) < msecs rule.startTime) :
    (rule.day today time).julianDay = today.julianDay - 1 := by
  rw [Rule.day, if_pos h, julianDay_previous]

theorem day_of_not_before (rule : Rule) (today : Date) (time : Time)
    (h : ¬ (msecs rule.endTime < msecs rule.startTime ∧ (time.val : Int) < msecs rule.startTime)) :
    (rule.day today time).julianDay = today.julianDay := by
  rw [Rule.day, if_neg h]

theorem matchesAt_iff_covers (hvalid : validate q rule = [])
    (hon : rule.enabled = true) (today : Date) (time : Time) :
    rule.matchesAt (some (today, time)) = true ↔
      ∃ d, rule.HasDay d ∧ rule.Covers d today time := by
  have htimes : rule.startTime ≠ none ∧ rule.endTime ≠ none := by
    refine ⟨fun hnone => ?_, fun hnone => ?_⟩ <;> simp [validate, hnone] at hvalid
  obtain ⟨start, hstart⟩ := Option.ne_none_iff_exists'.mp htimes.1
  obtain ⟨finish, hfinish⟩ := Option.ne_none_iff_exists'.mp htimes.2
  have hcovers : ∀ d, rule.Covers d today time ↔
      instant d.julianDay start ≤ instant today.julianDay time ∧
      instant today.julianDay time ≤
        instant (if finish < start then d.julianDay + 1 else d.julianDay) finish := by
    intro d
    simp only [Rule.Covers, hstart, hfinish, Option.mem_some_iff, exists_eq_left']
  have hcross : msecs rule.endTime < msecs rule.startTime ↔ finish < start := by
    rw [hstart, hfinish, msecs_lt]
  have hbefore := day_of_before rule today time
  have hnot := day_of_not_before rule today time
  rw [matchesAt_iff, and_iff_right hon]
  simp only [hcovers, hcross, instant] at hbefore hnot ⊢
  rw [hstart, hfinish] at *
  have hs := start.isLt
  have he := finish.isLt
  have ht := time.isLt
  simp only [msecs, Fin.lt_def] at *
  constructor
  · rintro ⟨hday, hin⟩
    refine ⟨rule.day today time, hday, ?_⟩
    split_ifs at hin ⊢ <;> omega
  · rintro ⟨d, hday, hlow, hhigh⟩
    have heq : (rule.day today time).julianDay = d.julianDay := by
      split_ifs at hhigh <;> omega
    refine ⟨(Rule.hasDay_congr heq).mpr hday, ?_⟩
    split_ifs at hhigh ⊢ <;> omega

/-! ### The effective rule -/

/-- The rules that match, at the highest priority, with the lowest identifier of these. -/
def Leads (at' : Option (Date × Time)) (rules : List Rule) (rule : Rule) : Prop :=
  rule ∈ rules ∧ rule.matchesAt at' = true ∧
    ∀ other ∈ rules, other.matchesAt at' = true →
      other.priority < rule.priority ∨ other.priority = rule.priority ∧ rule.id ≤ other.id

/-- The comparison of `effectiveRule`. -/
def better (candidate best : Rule) : Bool :=
  best.priority < candidate.priority ||
    (candidate.priority = best.priority && candidate.id < best.id)

def rank (rule : Rule) : Int ×ₗ (List Nat)ᵒᵈ := toLex (rule.priority, OrderDual.toDual rule.id)

theorem better_iff {a b : Rule} : better a b = true ↔ rank b < rank a := by
  simp only [better, Bool.or_eq_true, Bool.and_eq_true, decide_eq_true_eq, rank,
    Prod.Lex.toLex_lt_toLex, OrderDual.toDual_lt_toDual]
  rw [eq_comm]

theorem better_ranked : KeepBest.Ranked better rank where
  above h := better_iff.mpr h
  below h := Bool.eq_false_iff.mpr fun hbetter => lt_asymm h (better_iff.mp hbetter)

theorem foldl_betterRule (at' : Option (Date × Time)) (rules : List Rule) :
    rules.foldl (betterRule at') none =
      KeepBest.keepBest better (rules.filter fun rule => rule.matchesAt at') := by
  rw [KeepBest.keepBest, foldl_filter]
  congr 1
  funext best rule
  cases hmatch : rule.matchesAt at' with
  | false => simp [betterRule, hmatch]
  | true => cases best <;> simp [betterRule, hmatch, KeepBest.step, better]

variable {at' : Option (Date × Time)} {rules : List Rule}

theorem leads_iff :
    Leads at' rules rule ↔ rule ∈ rules.filter (fun rule => rule.matchesAt at') ∧
      ∀ other ∈ rules.filter fun rule => rule.matchesAt at', rank other ≤ rank rule := by
  have hrank : ∀ other : Rule, (other.priority < rule.priority ∨
      other.priority = rule.priority ∧ rule.id ≤ other.id) ↔ rank other ≤ rank rule := by
    intro other
    simp only [rank, Prod.Lex.toLex_le_toLex, OrderDual.toDual_le_toDual]
  simp only [Leads, hrank, mem_filter, and_assoc, and_imp]

theorem leads_of_keepBest
    (h : rules.foldl (betterRule at') none = some rule) : Leads at' rules rule := by
  rw [foldl_betterRule] at h
  exact leads_iff.mpr ⟨KeepBest.mem_of_keepBest h, better_ranked.rank_le h⟩

theorem foldl_betterRule_cons (h : Leads at' (rule :: rules) rule) :
    (rule :: rules).foldl (betterRule at') none = some rule := by
  have hlead := leads_iff.mp h
  rw [foldl_betterRule]
  rw [filter_cons_of_pos (p := fun rule : Rule => rule.matchesAt at') h.2.1] at hlead ⊢
  generalize rules.filter (fun rule => rule.matchesAt at') = more at hlead ⊢
  show more.foldl (KeepBest.step better) (some rule) = some rule
  have hle : ∀ other ∈ more, rank other ≤ rank rule :=
    fun other hmem => hlead.2 other (mem_cons_of_mem rule hmem)
  clear hlead h
  induction more with
  | nil => rfl
  | cons other more ih =>
    have hnot : better other rule = false :=
      Bool.eq_false_iff.mpr fun hbetter =>
        absurd (better_iff.mp hbetter) (not_lt.mpr (hle other mem_cons_self))
    rw [foldl_cons, KeepBest.step, hnot, if_neg Bool.false_ne_true]
    exact ih fun other' hmem => hle other' (mem_cons_of_mem other hmem)

theorem leads_perm {rules rules' : List Rule}
    (hperm : rules'.Perm rules) : Leads at' rules' rule ↔ Leads at' rules rule := by
  simp only [Leads, hperm.mem_iff]

theorem foldl_betterRule_perm {rules rules' : List Rule}
    (hperm : rules'.Perm rules) (hone : ∀ r r', Leads at' rules r → Leads at' rules r' → r = r') :
    rules'.foldl (betterRule at') none = rules.foldl (betterRule at') none := by
  have hnone : ∀ rules : List Rule, rules.foldl (betterRule at') none = none ↔
      ∀ rule ∈ rules, rule.matchesAt at' = false := by
    intro rules
    rw [foldl_betterRule, KeepBest.keepBest_eq_none_iff, filter_eq_nil_iff]
    simp only [Bool.not_eq_true]
  cases h : rules.foldl (betterRule at') none with
  | none =>
    rw [hnone] at h ⊢
    exact fun rule hmem => h rule (hperm.mem_iff.mp hmem)
  | some rule =>
    cases h' : rules'.foldl (betterRule at') none with
    | none =>
      have hlead := leads_of_keepBest h
      have hfalse := (hnone rules').mp h' rule (hperm.mem_iff.mpr hlead.1)
      exact nomatch hfalse.symm.trans hlead.2.1
    | some rule' =>
      rw [hone rule' rule ((leads_perm hperm).mp (leads_of_keepBest h')) (leads_of_keepBest h)]

/-! ### Stored rules -/

def Named (document : Option Json) : Prop :=
  ∀ o, .obj o ∈ storedRules document → Json.toStr (Json.Object.value o (text "id")) [] ≠ []

def loadedRule (q : Qt) : Json → Option Rule
  | .obj o => if validate q (fromJson q [] o) = [] then some (fromJson q [] o) else none
  | _ => none

theorem loadRules_named {uuids : Nat → QString} {values : List Json}
    (h : ∀ o, .obj o ∈ values → Json.toStr (Json.Object.value o (text "id")) [] ≠ []) :
    ∀ n, loadRules q uuids n values = values.filterMap (loadedRule q) := by
  induction values with
  | nil => exact fun _ => rfl
  | cons v more ih =>
    intro n
    have hmore := ih fun o ho => h o (mem_cons_of_mem v ho)
    cases v with
    | obj o =>
      have hid : fromJson q (uuids n) o = fromJson q [] o := by
        simp only [fromJson, if_neg (h o mem_cons_self)]
      simp only [loadRules, hid, hmore]
      by_cases hvalid : validate q (fromJson q [] o) = []
      · rw [if_pos hvalid, filterMap_cons_some (by rw [loadedRule, if_pos hvalid])]
      · rw [if_neg hvalid, filterMap_cons_none (by rw [loadedRule, if_neg hvalid])]
    | _ => exact hmore (n + 1)

theorem load_named (uuids : Nat → QString) {document : Option Json} (h : Named document) :
    load q uuids document = (storedRules document).filterMap (loadedRule q) :=
  loadRules_named h 0

theorem exists_document (values : List Json) : ∃ document, storedRules document = values := by
  refine ⟨some (.obj (Json.Object.insert (Json.Object.insert [] (text "schemaVersion") (.num 1))
    (text "rules") (.arr values))), ?_⟩
  simp [storedRules, value_insert_text, Json.toInt, Json.toArray]

theorem Named.perm {document document' : Option Json} (h : Named document)
    (hperm : (storedRules document').Perm (storedRules document)) : Named document' :=
  fun o ho => h o (hperm.mem_iff.mp ho)

theorem effectiveRule_perm_iff {env : Env} {document : Option Json} (hnamed : Named document) :
    (∀ env' document', (storedRules document').Perm (storedRules document) →
      effectiveRule q env' at' document' = effectiveRule q env at' document) ↔
    ∀ r r', Leads at' (load q env.ruleIds document) r →
      Leads at' (load q env.ruleIds document) r' → r = r' := by
  constructor
  · intro hsame r r' hr hr'
    -- the rule in front is the one that is found
    have hfront : ∀ r, Leads at' (load q env.ruleIds document) r →
        effectiveRule q env at' document = some r := by
      intro r hr
      have hmem := hr.1
      rw [load_named env.ruleIds hnamed, mem_filterMap] at hmem
      obtain ⟨v, hv, hload⟩ := hmem
      obtain ⟨before, after, hsplit⟩ := append_of_mem hv
      obtain ⟨document', hdocument⟩ := exists_document (v :: (before ++ after))
      have hperm : (storedRules document').Perm (storedRules document) := by
        rw [hdocument, hsplit]
        exact perm_middle.symm
      have hloaded := load_named (q := q) env.ruleIds (hnamed.perm hperm)
      have hleads : Leads at' (load q env.ruleIds document') r := by
        refine (leads_perm ?_).mpr hr
        rw [hloaded, load_named env.ruleIds hnamed]
        exact hperm.filterMap _
      rw [hdocument, filterMap_cons_some hload] at hloaded
      rw [← hsame env document' hperm, effectiveRule, hloaded]
      rw [hloaded] at hleads
      exact foldl_betterRule_cons hleads
    exact Option.some.inj ((hfront r hr).symm.trans (hfront r' hr'))
  · intro hone env' document' hperm
    refine foldl_betterRule_perm ?_ hone
    rw [load_named env.ruleIds hnamed, load_named env'.ruleIds (hnamed.perm hperm)]
    exact hperm.filterMap _

/-- A rule that is on matches exactly at the times in a window of one of its days.  The
effective rule is one that matches, of the highest priority, and there is one if any rule
matches; it does not depend on the order of the stored rules exactly where no two different
rules match that share the highest priority and its lowest identifier. -/
theorem schedule_windows (q : Qt) :
    (∀ rule today time, validate q rule = [] → rule.enabled = true →
      (rule.matchesAt (some (today, time)) = true ↔
        ∃ d, rule.HasDay d ∧ rule.Covers d today time)) ∧
    (∀ env at' document,
      (∀ r ∈ effectiveRule q env at' document, r ∈ load q env.ruleIds document ∧
        r.matchesAt at' = true ∧ ∀ other ∈ load q env.ruleIds document,
          other.matchesAt at' = true → other.priority ≤ r.priority) ∧
      (effectiveRule q env at' document = none ↔
        ∀ r ∈ load q env.ruleIds document, r.matchesAt at' = false)) ∧
    ∀ env at' document, Named document →
      ((∀ env' document', (storedRules document').Perm (storedRules document) →
        effectiveRule q env' at' document' = effectiveRule q env at' document) ↔
      ∀ r r', Leads at' (load q env.ruleIds document) r →
        Leads at' (load q env.ruleIds document) r' → r = r') := by
  refine ⟨fun rule today time hvalid hon => matchesAt_iff_covers hvalid hon today time,
    fun env at' document => ⟨fun r hr => ?_, ?_⟩, fun env at' document => effectiveRule_perm_iff⟩
  · obtain ⟨hmem, hmatch, hlead⟩ := leads_of_keepBest (Option.mem_def.mp hr)
    refine ⟨hmem, hmatch, fun other hother hmatch' => ?_⟩
    rcases hlead other hother hmatch' with hlt | ⟨heq, -⟩
    · exact le_of_lt hlt
    · exact le_of_eq heq
  · rw [effectiveRule, foldl_betterRule, KeepBest.keepBest_eq_none_iff, filter_eq_nil_iff]
    simp only [Bool.not_eq_true]

def nights : Rule :=
  { id := text "nights", label := text "Nights", weekdays := [1]
    startTime := some (Time.of 22 0 0), endTime := some (Time.of 6 0 0) }

theorem schedule_windows_nights :
    validate plainQt nights = [] ∧ nights.enabled = true ∧
      (nights.matchesAt (some (⟨2026, 1, 6, by decide⟩, Time.of 5 0 0)) = true ↔
        ∃ d, nights.HasDay d ∧ nights.Covers d ⟨2026, 1, 6, by decide⟩ (Time.of 5 0 0)) :=
  ⟨by decide, rfl, (schedule_windows plainQt).1 nights _ _ (by decide) rfl⟩

def twin (theme : String) : Rule :=
  { id := text "twin", label := text "Twin", values := SortedMap.empty.insert (text "theme")
      (text theme) }

def evening : Env where
  now := 0
  current := none
  secret _ := false
  ruleIds _ := []
  refreshIds _ := []

/-- A rule that is off matches nowhere, and the effective rule of two twins is the first one. -/
theorem schedule_windows_twins :
    (∃ rule today time, validate plainQt rule = [] ∧
      ¬ (rule.matchesAt (some (today, time)) = true ↔
        ∃ d, rule.HasDay d ∧ rule.Covers d today time)) ∧
    ∃ document document', (storedRules document').Perm (storedRules document) ∧
      effectiveRule plainQt evening (some (⟨2026, 1, 6, by decide⟩, Time.of 5 0 0)) document' ≠
        effectiveRule plainQt evening (some (⟨2026, 1, 6, by decide⟩, Time.of 5 0 0)) document := by
  constructor
  · refine ⟨{ nights with enabled := false }, ⟨2026, 1, 5, by decide⟩, Time.of 23 0 0, by decide,
      fun h => ?_⟩
    have hmatch := h.mpr ⟨⟨2026, 1, 5, by decide⟩, ⟨nofun, nofun, Or.inr (by decide)⟩,
      Time.of 22 0 0, rfl, Time.of 6 0 0, rfl, by decide, by decide⟩
    exact absurd hmatch (by decide)
  · obtain ⟨document, hdocument⟩ :=
      exists_document [.obj (toJson (twin "dark")), .obj (toJson (twin "light"))]
    obtain ⟨document', hdocument'⟩ :=
      exists_document [.obj (toJson (twin "light")), .obj (toJson (twin "dark"))]
    refine ⟨document, document', ?_, ?_⟩
    · rw [hdocument, hdocument']
      exact List.Perm.swap _ _ _
    · rw [effectiveRule, effectiveRule, load, load, hdocument, hdocument']
      decide +kernel

end Sandboxie.Schedule
