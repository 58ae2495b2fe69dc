import Sandboxie.Plus.ScheduledRules

/-!
# Storing and loading a schedule

`stored` is what is left of a rule that `validate` accepts after it was saved and loaded:
times lose their milliseconds, dates outside of the years that the text format has are lost,
and each weekday is kept once.
-/

namespace Sandboxie.Schedule

open List

variable {q : Qt} {rule : Rule}

/-! ### Fields -/

theorem text_inj {s t : String} : text s = text t ↔ s = t := by
  unfold text wide
  rw [map_inj_right fun c c' h => Char.toNat_inj.mp h, String.toList_inj]

def Date.InFormat (d : Date) : Prop := 0 ≤ d.year ∧ d.year ≤ 9999

instance (d : Date) : Decidable d.InFormat := inferInstanceAs (Decidable (_ ∧ _))

/-- A date that comes back from its text. -/
def keptDate (d : Option Date) : Option Date := d.filter fun d => d.InFormat

/-- The weekdays, each once. -/
def keptDays : List Int → List Int → List Int
  | [], days => days
  | day :: more, days =>
    if day ∈ days then keptDays more days else keptDays more (days ++ [day])

/-- What is left of a rule that was saved and loaded. -/
def Rule.stored (rule : Rule) : Rule :=
  { rule with
    startDate := keptDate rule.startDate
    endDate := keptDate rule.endDate
    startTime := rule.startTime.map Time.whole
    endTime := rule.endTime.map Time.whole
    weekdays := keptDays rule.weekdays [] }

theorem isoDate_eq_nil {d : Date} (h : ¬ d.InFormat) : isoDate d = [] := if_neg h

theorem keptDate_some (d : Date) : keptDate (some d) = if d.InFormat then some d else none := by
  by_cases hd : d.InFormat
  · rw [if_pos hd]
    exact Option.filter_some_pos (decide_eq_true hd)
  · rw [if_neg hd]
    exact Option.filter_some_neg (decide_eq_false hd)

/-! ### What a rule's document says -/

section Lookups

variable (o : Json.Object) (name name' : String)

theorem value_insert_text (v : Json) : (o.insert (text name') v).value (text name) =
    if name = name' then some v else o.value (text name) := by
  rw [Json.Object.value_insert]
  simp only [text_inj]

theorem value_insertNonEmpty (s : QString) :
    (insertNonEmpty o name' s).value (text name) =
      if name = name' ∧ s ≠ [] then some (.str s) else o.value (text name) := by
  unfold insertNonEmpty
  by_cases hs : s = []
  · rw [if_pos hs, if_neg fun h => h.2 hs]
  · rw [if_neg hs, value_insert_text]
    simp only [hs, ne_eq, not_false_eq_true, and_true]

theorem value_insertDate (d : Option Date) :
    (insertDate o name' d).value (text name) =
      if name = name' ∧ d.isSome then d.map fun d => .str (isoDate d)
      else o.value (text name) := by
  cases d with
  | none =>
    rw [if_neg fun h => Bool.noConfusion h.2]
    rfl
  | some d =>
    unfold insertDate
    rw [value_insert_text]
    simp only [Option.isSome_some, and_true, Option.map_some]

end Lookups

theorem insert_ne_nil (o : Json.Object) (name : QString) (v : Json) :
    (o.insert name v).isEmpty = false := by
  cases o with
  | nil => rfl
  | cons e rest =>
    obtain ⟨k, w⟩ := e
    unfold Json.Object.insert SortedMap.insertEntry
    split_ifs <;> rfl

theorem toStr_insertNonEmpty (s : QString) :
    Json.toStr (if s ≠ [] then some (.str s) else none) [] = s := by
  by_cases hs : s = []
  · rw [if_neg (not_not.mpr hs), hs]
    rfl
  · rw [if_pos hs]
    rfl

theorem readSource_sourceJson (source : Source) (hlow : 15 ≤ source.refreshSeconds)
    (hhigh : source.refreshSeconds ≤ 86400) : readSource (sourceJson source) = source := by
  have hkind : (sourceJson source).value (text "kind") = some (.str source.kind) := by
    simp [sourceJson, value_insert_text, value_insertNonEmpty]
  have hurl : (sourceJson source).value (text "url") =
      if source.url ≠ [] then some (.str source.url) else none := by
    simp [sourceJson, value_insert_text, value_insertNonEmpty, Json.Object.value_nil]
  have hentity : (sourceJson source).value (text "entityId") =
      if source.entityId ≠ [] then some (.str source.entityId) else none := by
    simp [sourceJson, value_insert_text, value_insertNonEmpty, Json.Object.value_nil]
  have hcredential : (sourceJson source).value (text "credentialRef") =
      if source.credentialRef ≠ [] then some (.str source.credentialRef) else none := by
    simp [sourceJson, value_insert_text, value_insertNonEmpty, Json.Object.value_nil]
  have hrefresh : (sourceJson source).value (text "refreshSeconds") =
      some (.num source.refreshSeconds) := by
    simp [sourceJson, value_insert_text]
  have hempty : (sourceJson source).isEmpty = false := insert_ne_nil _ _ _
  unfold readSource
  rw [hempty, hkind, hurl, hentity, hcredential, hrefresh, toStr_insertNonEmpty,
    toStr_insertNonEmpty, toStr_insertNonEmpty, Json.toInt_num (by omega) (by omega)]
  rfl

/-! ### Values -/

theorem value_valuesJson {entries : List (QString × QString)} :
    ∀ {o : Json.Object}, SortedMap.Sorted entries → (∀ e ∈ entries, e.1 ∈ kKeys) →
      ∀ key, Json.Object.value (entries.foldl (fun o e =>
        if e.1 ∈ kKeys then Json.Object.insert o e.1 (.str e.2) else o) o) key =
        match SortedMap.valueOf key entries with
        | some v => some (.str v)
        | none => o.value key := by
  induction entries with
  | nil => exact fun _ _ _ => rfl
  | cons e rest ih =>
    obtain ⟨k, v⟩ := e
    intro o hsorted hkeys key
    have hsplit := pairwise_cons.mp hsorted
    rw [foldl_cons, if_pos (hkeys (k, v) mem_cons_self),
      ih hsplit.2 fun e he => hkeys e (mem_cons_of_mem _ he), SortedMap.valueOf,
      Json.Object.value_insert]
    by_cases hk : key = k
    · subst hk
      have hnone : SortedMap.valueOf key rest = none := by
        cases hvalue : SortedMap.valueOf key rest with
        | none => rfl
        | some w =>
          have hmem := (SortedMap.valueOf_eq_some hsplit.2).mp hvalue
          exact absurd (hsplit.1 _ hmem) (lt_irrefl key)
      simp only [hnone, if_true]
    · simp only [if_neg hk]

theorem value_readValues (values : Json.Object) (key : QString) :
    ∀ (keys : List QString) (m : SortedMap QString QString),
      (keys.foldl (fun m key =>
        match values.value key with
        | none => m
        | some v => m.insert key (Json.toStr (some v) [])) m).value key =
        if key ∈ keys ∧ (values.value key).isSome then
          some (Json.toStr (values.value key) [])
        else m.value key := by
  intro keys
  induction keys with
  | nil =>
    intro m
    rw [if_neg fun h => not_mem_nil h.1]
    rfl
  | cons k keys ih =>
    intro m
    rw [foldl_cons, ih]
    by_cases hmem : key ∈ keys ∧ (values.value key).isSome
    · rw [if_pos hmem, if_pos ⟨mem_cons_of_mem k hmem.1, hmem.2⟩]
    rw [if_neg hmem]
    by_cases hk : key = k
    · subst hk
      cases hvalue : values.value key with
      | none => simp
      | some v =>
        simp only [Option.isSome_some, and_true, mem_cons, true_or, if_true]
        rw [SortedMap.value_insert, if_pos rfl]
    · have hcons : ¬ (key ∈ k :: keys ∧ (values.value key).isSome) := by
        rintro ⟨hcons, hsome⟩
        exact hmem ⟨(mem_cons.mp hcons).resolve_left hk, hsome⟩
      rw [if_neg hcons]
      cases values.value k with
      | none => rfl
      | some v => exact (SortedMap.value_insert m key k _).trans (if_neg hk)

theorem readValues_valuesJson (values : SortedMap QString QString)
    (hkeys : ∀ e ∈ values.entries, e.1 ∈ kKeys) : readValues (valuesJson values) = values := by
  ext1 key
  have hjson := value_valuesJson (o := []) values.sorted hkeys key
  have hread := value_readValues (valuesJson values) key kKeys SortedMap.empty
  refine Eq.trans hread ?_
  have hvalue : Json.Object.value (valuesJson values) key =
      match values.value key with
      | some v => some (.str v)
      | none => none := hjson
  rw [hvalue]
  cases hsome : values.value key with
  | none => simp
  | some v =>
    have hkey := hkeys _ (SortedMap.value_eq_some.mp hsome)
    rw [if_pos ⟨hkey, rfl⟩]
    rfl

/-! ### Weekdays -/

theorem readDays_days : ∀ (days acc : List Int), (∀ day ∈ days, 1 ≤ day ∧ day ≤ 7) →
    readDays (days.map dayJson) acc = keptDays days acc := by
  intro days
  induction days with
  | nil => exact fun _ _ => rfl
  | cons day more ih =>
    intro acc hdays
    have hday := hdays day mem_cons_self
    have hmore := fun d hd => hdays d (mem_cons_of_mem day hd)
    rw [map_cons, dayJson, readDays, Json.toInt_num (by omega) (by omega), keptDays]
    by_cases hmem : day ∈ acc
    · rw [if_neg fun h => h.2.2 hmem, if_pos hmem, ih acc hmore]
    · rw [if_pos ⟨hday.1, hday.2, hmem⟩, if_neg hmem, ih _ hmore]

theorem mem_keptDays {day : Int} : ∀ {days acc : List Int},
    day ∈ keptDays days acc → day ∈ days ∨ day ∈ acc := by
  intro days
  induction days with
  | nil => exact fun h => Or.inr h
  | cons d more ih =>
    intro acc h
    rw [keptDays] at h
    split at h
    · exact (ih h).imp_left (mem_cons_of_mem d)
    · rcases ih h with hmore | hacc
      · exact Or.inl (mem_cons_of_mem d hmore)
      · rcases mem_append.mp hacc with hacc | hd
        · exact Or.inr hacc
        · exact Or.inl (mem_singleton.mp hd ▸ mem_cons_self)

theorem keptDays_nodup : ∀ {days acc : List Int}, acc.Nodup → (keptDays days acc).Nodup := by
  intro days
  induction days with
  | nil => exact fun h => h
  | cons d more ih =>
    intro acc h
    rw [keptDays]
    split
    · exact ih h
    · rename_i hd
      exact ih (nodup_append.mpr ⟨h, nodup_singleton d, fun a ha b hb hab => by
        rw [mem_singleton.mp hb] at hab
        exact hd (hab ▸ ha)⟩)

theorem keptDays_of_nodup : ∀ {days acc : List Int}, (acc ++ days).Nodup →
    keptDays days acc = acc ++ days := by
  intro days
  induction days with
  | nil => exact fun _ => (append_nil _).symm
  | cons d more ih =>
    intro acc h
    have hd : d ∉ acc := fun hacc =>
      (nodup_append.mp h).2.2 d hacc d mem_cons_self rfl
    rw [keptDays, if_neg hd, ih (by simpa using h)]
    simp

theorem keptDays_eq_iff {days : List Int} : keptDays days [] = days ↔ days.Nodup := by
  refine ⟨fun h => ?_, fun h => keptDays_of_nodup h⟩
  rw [← h]
  exact keptDays_nodup nodup_nil

/-! ### Rules that the check accepts -/

theorem ite_eq_nil {α : Type} {p : Prop} [Decidable p] {l : List α} (hl : l ≠ []) :
    (if p then l else []) = [] ↔ ¬ p := by
  split_ifs with h <;> simp [h, hl]

/-- What `validate` says about the fields that `save` and `load` may change. -/
structure Accepted (rule : Rule) : Prop where
  id : rule.id ≠ []
  priority : -1000 ≤ rule.priority ∧ rule.priority ≤ 1000
  startTime : rule.startTime.isSome
  endTime : rule.endTime.isSome
  weekdays : ∀ day ∈ rule.weekdays, 1 ≤ day ∧ day ≤ 7
  keys : ∀ e ∈ rule.values.entries, e.1 ∈ kKeys
  refreshSeconds : 15 ≤ rule.source.refreshSeconds ∧ rule.source.refreshSeconds ≤ 86400

theorem accepted (h : validate q rule = []) : Accepted rule := by
  simp only [validate, append_eq_nil_iff, flatMap_eq_nil_iff] at h
  obtain ⟨⟨⟨⟨⟨⟨⟨hid, -⟩, hpriority⟩, -⟩, htimes⟩, hweekdays⟩, hvalues⟩, hsource⟩ := h
  rw [ite_eq_nil (cons_ne_nil _ _)] at hid hpriority htimes
  push Not at hpriority htimes
  refine ⟨?_, hpriority, Option.isSome_iff_ne_none.mpr htimes.1,
    Option.isSome_iff_ne_none.mpr htimes.2, ?_, ?_, ?_⟩
  · intro hnil
    rw [hnil] at hid
    exact hid rfl
  · intro day hday
    have hrange := hweekdays day hday
    rw [ite_eq_nil (cons_ne_nil _ _)] at hrange
    omega
  · intro e he
    have hissues := hvalues e he
    unfold valueIssues at hissues
    by_contra hkey
    rw [if_pos hkey] at hissues
    exact cons_ne_nil _ _ hissues
  · unfold sourceIssues at hsource
    have hrange := (append_eq_nil_iff.mp (append_eq_nil_iff.mp hsource).1).2
    rw [ite_eq_nil (cons_ne_nil _ _)] at hrange
    omega

theorem validate_stored (h : validate q rule = []) : validate q rule.stored = [] := by
  have hrule := accepted h
  simp only [validate, append_eq_nil_iff, flatMap_eq_nil_iff] at h ⊢
  obtain ⟨⟨⟨⟨⟨⟨⟨hid, hlabel⟩, hpriority⟩, hdates⟩, -⟩, hweekdays⟩, hvalues⟩, hsource⟩ := h
  refine ⟨⟨⟨⟨⟨⟨⟨hid, hlabel⟩, hpriority⟩, ?_⟩, ?_⟩, ?_⟩, hvalues⟩, hsource⟩
  · -- a date that is left is the one that was checked
    have hkept : rule.stored.startDate = keptDate rule.startDate ∧
        rule.stored.endDate = keptDate rule.endDate := ⟨rfl, rfl⟩
    rw [hkept.1, hkept.2]
    cases hstart : keptDate rule.startDate with
    | none => rfl
    | some start =>
      cases hfinish : keptDate rule.endDate with
      | none => rfl
      | some finish =>
        rw [(Option.filter_eq_some_iff.mp hstart).1,
          (Option.filter_eq_some_iff.mp hfinish).1] at hdates
        exact hdates
  · rw [ite_eq_nil (cons_ne_nil _ _)]
    show ¬ (rule.startTime.map Time.whole = none ∨ rule.endTime.map Time.whole = none)
    rw [Option.map_eq_none_iff, Option.map_eq_none_iff]
    rintro (hnone | hnone)
    · exact Option.isSome_iff_ne_none.mp hrule.startTime hnone
    · exact Option.isSome_iff_ne_none.mp hrule.endTime hnone
  · intro day hday
    exact hweekdays day ((mem_keptDays hday).resolve_right not_mem_nil)

/-! ### A rule comes back from its document -/

theorem parseDate_value (hq : q.Documented) (d : Option Date) :
    q.parseDate (Json.toStr (d.map fun d => Json.str (isoDate d)) []) = keptDate d := by
  cases d with
  | none => exact hq.parse_empty
  | some d =>
    show q.parseDate (isoDate d) = keptDate (some d)
    rw [keptDate_some]
    by_cases hd : d.InFormat
    · rw [if_pos hd, hq.parse_isoDate d hd.1 hd.2]
    · rw [if_neg hd, isoDate_eq_nil hd, hq.parse_empty]

theorem parseTime_timeString (hq : q.Documented) {t : Option Time} (ht : t.isSome) :
    q.parseTime (timeString t) = t.map Time.whole := by
  obtain ⟨t, rfl⟩ := Option.isSome_iff_exists.mp ht
  exact hq.parse_timeText t

theorem value_date (d : Option Date) :
    (if d.isSome then d.map fun d => Json.str (isoDate d) else none) =
      d.map fun d => Json.str (isoDate d) := by
  cases d <;> rfl

theorem fromJson_toJson (hq : q.Documented) (uuid : QString) (h : validate q rule = []) :
    fromJson q uuid (toJson rule) = rule.stored := by
  have hrule := accepted h
  obtain ⟨hlow, hhigh⟩ := hrule.priority
  have hid : (toJson rule).value (text "id") = some (.str rule.id) := by
    simp [toJson, value_insert_text, value_insertDate]
  have hlabel : (toJson rule).value (text "label") = some (.str rule.label) := by
    simp [toJson, value_insert_text, value_insertDate]
  have henabled : (toJson rule).value (text "enabled") = some (.bool rule.enabled) := by
    simp [toJson, value_insert_text, value_insertDate]
  have hpriority : (toJson rule).value (text "priority") = some (.num rule.priority) := by
    simp [toJson, value_insert_text, value_insertDate]
  have hstartDate : (toJson rule).value (text "startDate") =
      rule.startDate.map fun d => Json.str (isoDate d) := by
    rw [← value_date]
    simp [toJson, value_insert_text, value_insertDate, Json.Object.value_nil]
  have hendDate : (toJson rule).value (text "endDate") =
      rule.endDate.map fun d => Json.str (isoDate d) := by
    rw [← value_date]
    simp [toJson, value_insert_text, value_insertDate, Json.Object.value_nil]
  have hstartTime : (toJson rule).value (text "startTime") =
      some (.str (timeString rule.startTime)) := by
    simp [toJson, value_insert_text]
  have hendTime : (toJson rule).value (text "endTime") =
      some (.str (timeString rule.endTime)) := by
    simp [toJson, value_insert_text]
  have hweekdays : (toJson rule).value (text "weekdays") =
      some (.arr (rule.weekdays.map dayJson)) := by
    simp [toJson, value_insert_text]
  have hvalues : (toJson rule).value (text "values") =
      some (.obj (valuesJson rule.values)) := by
    simp [toJson, value_insert_text]
  have hsource : (toJson rule).value (text "source") =
      some (.obj (sourceJson rule.source)) := by
    simp [toJson, value_insert_text]
  unfold fromJson
  rw [hid, hlabel, henabled, hpriority, hstartDate, hendDate, hstartTime, hendTime, hweekdays,
    hvalues, hsource, parseDate_value hq, parseDate_value hq,
    Json.toInt_num (by omega) (by omega)]
  have hstart := parseTime_timeString hq hrule.startTime
  have hfinish := parseTime_timeString hq hrule.endTime
  have hidKept : (if Json.toStr (some (.str rule.id)) [] = [] then uuid
      else Json.toStr (some (.str rule.id)) []) = rule.id := if_neg hrule.id
  have hpriorityBound : qBound (-1000) rule.priority 1000 = rule.priority := by
    unfold qBound
    rw [min_eq_left hhigh, max_eq_right hlow]
  have hdays := readDays_days rule.weekdays [] hrule.weekdays
  have hread := readValues_valuesJson rule.values hrule.keys
  have hreadSource := readSource_sourceJson rule.source hrule.refreshSeconds.1
    hrule.refreshSeconds.2
  simp only [hidKept]
  simp only [Json.toStr, Json.toBool, Json.toArray, Json.toObject, hstart, hfinish,
    hpriorityBound, hdays, hread, hreadSource, Option.isSome_map,
    hrule.startTime, hrule.endTime, if_true]
  rfl

theorem loadRules_map (hq : q.Documented) (uuids : Nat → QString) :
    ∀ (rules : List Rule) (n : Nat), (∀ r ∈ rules, validate q r = []) →
      loadRules q uuids n (rules.map fun r => .obj (toJson r)) = rules.map Rule.stored := by
  intro rules
  induction rules with
  | nil => exact fun _ _ => rfl
  | cons r rules ih =>
    intro n hrules
    have hr := hrules r mem_cons_self
    rw [map_cons, loadRules, fromJson_toJson hq _ hr]
    show (if validate q r.stored = [] then r.stored :: loadRules q uuids (n + 1) _
      else _) = _
    rw [if_pos (validate_stored hr), ih _ fun r' hr' => hrules r' (mem_cons_of_mem r hr')]
    rfl

theorem save_eq_ok {rules : List Rule} (hrules : ∀ r ∈ rules, validate q r = []) :
    ∃ document, save q rules = .ok document ∧
      storedRules (some document) = rules.map fun r => .obj (toJson r) := by
  unfold save
  have hnone : rules.find? (fun rule => validate q rule ≠ []) = none := by
    rw [find?_eq_none]
    intro r hr
    simp [hrules r hr]
  rw [hnone]
  refine ⟨_, rfl, ?_⟩
  simp [storedRules, value_insert_text, Json.toInt, Json.toArray]

/-! ### Which rules come back unchanged -/

/-- A time without milliseconds, weekdays that stand there once and dates that the text
format has. -/
structure Rule.Exact (rule : Rule) : Prop where
  startDate : ∀ d ∈ rule.startDate, d.InFormat
  endDate : ∀ d ∈ rule.endDate, d.InFormat
  startTime : ∀ t ∈ rule.startTime, t.val % 1000 = 0
  endTime : ∀ t ∈ rule.endTime, t.val % 1000 = 0
  weekdays : rule.weekdays.Nodup

theorem keptDate_eq_iff {d : Option Date} : keptDate d = d ↔ ∀ d' ∈ d, d'.InFormat := by
  cases d with
  | none => exact ⟨fun _ _ h => (nomatch h), fun _ => rfl⟩
  | some d =>
    rw [keptDate_some]
    constructor
    · intro h d' hd'
      cases hd'
      by_contra hnot
      rw [if_neg hnot] at h
      exact nomatch h
    · intro h
      rw [if_pos (h d rfl)]

theorem map_whole_eq_iff {t : Option Time} :
    t.map Time.whole = t ↔ ∀ t' ∈ t, t'.val % 1000 = 0 := by
  cases t with
  | none => exact ⟨fun _ _ h => (nomatch h), fun _ => rfl⟩
  | some t =>
    rw [Option.map_some, Option.some.injEq, Fin.ext_iff]
    show t.val / 1000 * 1000 = t.val ↔ _
    constructor
    · intro h t' ht'
      cases ht'
      omega
    · intro h
      have ht := h t rfl
      omega

theorem stored_eq_iff : rule.stored = rule ↔ rule.Exact := by
  constructor
  · intro h
    refine ⟨?_, ?_, ?_, ?_, ?_⟩
    · exact keptDate_eq_iff.mp (congrArg Rule.startDate h)
    · exact keptDate_eq_iff.mp (congrArg Rule.endDate h)
    · exact map_whole_eq_iff.mp (congrArg Rule.startTime h)
    · exact map_whole_eq_iff.mp (congrArg Rule.endTime h)
    · exact keptDays_eq_iff.mp (congrArg Rule.weekdays h)
  · intro h
    unfold Rule.stored
    rw [keptDate_eq_iff.mpr h.startDate, keptDate_eq_iff.mpr h.endDate,
      map_whole_eq_iff.mpr h.startTime, map_whole_eq_iff.mpr h.endTime,
      keptDays_eq_iff.mpr h.weekdays]

theorem map_stored_eq_iff {rules : List Rule} :
    rules.map Rule.stored = rules ↔ ∀ r ∈ rules, r.Exact := by
  have hid : rules.map Rule.stored = rules.map id ↔ ∀ r ∈ rules, r.stored = id r :=
    map_inj_left
  rw [map_id] at hid
  exact hid.trans (forall₂_congr fun _ _ => stored_eq_iff)

end Sandboxie.Schedule
