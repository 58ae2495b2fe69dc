import Sandboxie.Common.IniLoad

/-!
# Values of the ini file

`CIniFile::GetValue` of `common/ini.cpp` and what it reads after `SetValue`.  The values of a
setting are one string, with line feeds between them; `GetValue` puts one in front of a value
only when the string is not empty by then, and `SetValue` takes nothing behind the last one.
-/

namespace Sandboxie.Ini

open Text List

/-- `STATUS_OBJECT_NAME_NOT_FOUND` -/
def objectNameNotFound : Status := .failed 0xC0000034

section Names

variable (towlower : WChar → WChar)

/-- One turn of the loop of `GetValue`; the empty name gets the whole section. -/
def getStep (setting value : List WChar) (e : Entry) : List WChar :=
  if setting = [] then
    value ++ ((if e.name = [] then [] else e.name ++ [61]) ++ e.value ++ [13, 10])
  else if e.isNamed towlower setting then
    (if value = [] then value else value ++ [10]) ++ e.value
  else value

/-- `GetValue`, which appends to an empty string. -/
def getValue (ini : CIniFile) (section_ setting : List WChar) : Status × List WChar :=
  match ini.sections.find? (Section.isNamed towlower section_) with
  | none => (objectNameNotFound, [])
  | some sec => (.success, sec.entries.foldl (getStep towlower setting) [])

end Names

/-! ### Value lists -/

/-- A line feed goes between two values, unless there is nothing in front of it. -/
def joinStep (value v : List WChar) : List WChar :=
  (if value = [] then value else value ++ [10]) ++ v

theorem foldl_joinStep (acc v line : List WChar) (hacc : acc ≠ [] ∨ line ≠ [])
    (hv : line ++ v ≠ []) :
    (lines v line).foldl joinStep acc =
      joinStep acc line ++ (if v.getLast? = some 10 then v.dropLast else v) := by
  induction v generalizing acc line with
  | nil =>
    cases line with
    | nil => exact absurd rfl hv
    | cons c line => simp [lines]
  | cons c v ih =>
    rw [lines]
    by_cases hc : c = 10
    · subst hc
      rw [if_pos rfl, foldl_cons]
      have hnext : joinStep acc line ≠ [] := by
        rcases hacc with hacc | hline
        · simp [joinStep, hacc]
        · simp [joinStep, hline]
      cases v with
      | nil => simp [lines]
      | cons d v =>
        rw [ih _ [] (.inl hnext) (by simp), getLast?_cons_cons, dropLast_cons_cons,
          joinStep, if_neg hnext]
        split <;> simp
    · have hline : joinStep acc (line ++ [c]) = joinStep acc line ++ [c] := by simp [joinStep]
      rw [if_neg hc, ih acc (line ++ [c]) (.inr (by simp)) (by simp), hline]
      cases v with
      | nil => simp [hc]
      | cons d v =>
        rw [getLast?_cons_cons, dropLast_cons_cons]
        split <;> simp

theorem head?_foldl_joinStep (v : List WChar) :
    ((lines v []).foldl joinStep []).head? ≠ some 10 := by
  induction v with
  | nil => simp [lines]
  | cons c v ih =>
    rw [lines]
    by_cases hc : c = 10
    · rw [if_pos hc, foldl_cons]
      exact ih
    · rw [if_neg hc, foldl_joinStep [] v ([] ++ [c]) (.inr (by simp)) (by simp)]
      simpa [joinStep] using hc

theorem foldl_joinStep_eq_iff (v : List WChar) :
    (lines v []).foldl joinStep [] = v ↔ v.head? ≠ some 10 ∧ v.getLast? ≠ some 10 := by
  cases v with
  | nil => simp [lines]
  | cons c v =>
    by_cases hc : c = 10
    · refine iff_of_false (fun heq => ?_) fun h => h.1 (by rw [hc]; rfl)
      have hhead := head?_foldl_joinStep (c :: v)
      rw [heq, hc] at hhead
      exact hhead rfl
    · have hfirst : joinStep [] ([] ++ [c]) = [c] := rfl
      rw [lines, if_neg hc, foldl_joinStep [] v ([] ++ [c]) (.inr (by simp)) (by simp), hfirst]
      cases v with
      | nil => simp [hc]
      | cons d v =>
        rw [getLast?_cons_cons]
        split
        · rename_i hlast
          refine iff_of_false (fun heq => ?_) fun h => h.2 hlast
          have hlen := congrArg List.length heq
          simp at hlen
        · rename_i hlast
          refine iff_of_true rfl ⟨by simpa using hc, hlast⟩

structure ValueList where
  text : List WChar
  short : ∀ line ∈ lines text [], line.length ≤ confLineLen

theorem ValueList.map_value_newEntries (v : ValueList) (setting : List WChar) :
    (newEntries setting v.text).map Entry.value = lines v.text [] := by
  rw [newEntries, map_map]
  conv_rhs => rw [← map_id (lines v.text [])]
  exact map_congr_left fun line hline => take_of_length_le (v.short line hline)

/-! ### Sections -/

section Names

variable {towlower : WChar → WChar} {section_ setting : List WChar}

theorem Section.isNamed_congr {a b : List WChar} (h : sameNoCase towlower a b = true) :
    Section.isNamed towlower a = Section.isNamed towlower b := by
  funext sec
  have hmap : a.map towlower = b.map towlower := beq_iff_eq.mp h
  rw [isNamed, isNamed, sameNoCase, sameNoCase, hmap]

theorem Section.sameNoCase_of_isNamed {a b : List WChar} {sec : Section}
    (ha : sec.isNamed towlower a = true) (hb : sec.isNamed towlower b = true) :
    sameNoCase towlower a b = true :=
  beq_iff_eq.mpr ((beq_iff_eq.mp ha).symm.trans (beq_iff_eq.mp hb))

theorem Entry.sameNoCase_of_isNamed {a b : List WChar} {e : Entry}
    (ha : e.isNamed towlower a = true) (hb : e.isNamed towlower b = true) :
    sameNoCase towlower a b = true :=
  beq_iff_eq.mpr ((beq_iff_eq.mp ha).symm.trans (beq_iff_eq.mp hb))

theorem find?_changeEntries (f : List Entry → List Entry) (secs : List Section) :
    (changeEntries towlower section_ f secs).find? (Section.isNamed towlower section_) =
      (secs.find? (Section.isNamed towlower section_)).map
        fun sec => { sec with entries := f sec.entries } := by
  induction secs with
  | nil => rfl
  | cons sec secs ih =>
    rw [changeEntries]
    by_cases h : sec.isNamed towlower section_ = true
    · have hchanged : Section.isNamed towlower section_
          { sec with entries := f sec.entries } = true := h
      rw [if_pos h, find?_cons_of_pos hchanged, find?_cons_of_pos h, Option.map_some]
    · rw [if_neg h, find?_cons_of_neg h, find?_cons_of_neg h, ih]

theorem find?_changeEntries_ne {other : List WChar}
    (hne : ¬ sameNoCase towlower other section_ = true) (f : List Entry → List Entry)
    (secs : List Section) :
    (changeEntries towlower section_ f secs).find? (Section.isNamed towlower other) =
      secs.find? (Section.isNamed towlower other) := by
  induction secs with
  | nil => rfl
  | cons sec secs ih =>
    rw [changeEntries]
    by_cases h : sec.isNamed towlower section_ = true
    · have hother : ¬ sec.isNamed towlower other = true := fun ho =>
        hne (Section.sameNoCase_of_isNamed ho h)
      have hchanged :
          ¬ Section.isNamed towlower other { sec with entries := f sec.entries } = true := hother
      rw [if_pos h, find?_cons_of_neg hchanged, find?_cons_of_neg hother]
    · rw [if_neg h, find?_cons, find?_cons, ih]

theorem find?_getSection (ini : CIniFile) :
    (getSection towlower ini section_).sections.find? (Section.isNamed towlower section_) =
      some ((ini.sections.find? (Section.isNamed towlower section_)).getD ⟨section_, []⟩) := by
  rw [getSection]
  cases hfind : ini.sections.find? (Section.isNamed towlower section_) with
  | some sec =>
    rw [if_pos, hfind]
    · rfl
    · exact any_eq_true.mpr
        ⟨sec, mem_of_find?_eq_some hfind, find?_some hfind⟩
  | none =>
    rw [if_neg]
    · have hself : Section.isNamed towlower section_ ⟨section_, []⟩ = true := beq_self_eq_true _
      rw [find?_append, hfind, find?_cons_of_pos hself]
      rfl
    · intro hany
      obtain ⟨sec, hmem, hnamed⟩ := any_eq_true.mp hany
      exact find?_eq_none.mp hfind sec hmem hnamed

theorem find?_getSection_ne {other : List WChar}
    (hne : ¬ sameNoCase towlower other section_ = true) (ini : CIniFile) :
    (getSection towlower ini section_).sections.find? (Section.isNamed towlower other) =
      ini.sections.find? (Section.isNamed towlower other) := by
  rw [getSection]
  split
  · rfl
  · have hself : Section.isNamed towlower section_ ⟨section_, []⟩ = true := beq_self_eq_true _
    have hother : ¬ Section.isNamed towlower other ⟨section_, []⟩ = true := fun ho =>
      hne (Section.sameNoCase_of_isNamed ho hself)
    rw [find?_append, find?_cons_of_neg hother, find?_nil, Option.or_none]

theorem getSection_sections_eq_iff (ini : CIniFile) :
    (getSection towlower ini section_).sections = ini.sections ↔
      ini.sections.any (Section.isNamed towlower section_) = true := by
  rw [getSection]
  split
  · rename_i h
    exact iff_of_true rfl h
  · rename_i h
    refine iff_of_false (fun heq => ?_) h
    have hlen := congrArg List.length heq
    simp at hlen

/-! ### Entries -/

theorem replaceEntries_eq (new entries : List Entry) :
    ∃ front behind, entries = front ++ behind ∧
      (∀ e ∈ behind, e.isNamed towlower setting = false) ∧
      insertLast towlower setting new entries = front ++ new ++ behind ∧
      replaceEntries towlower setting new entries =
        front.filter (fun e => !e.isNamed towlower setting) ++ new ++ behind := by
  let behind := (entries.reverse.takeWhile fun e => !e.isNamed towlower setting).reverse
  have hbehind : ∀ e ∈ behind, e.isNamed towlower setting = false := fun e he => by
    simpa using mem_takeWhile_imp (mem_reverse.mp he)
  have hsuffix : behind <:+ entries := by
    rw [← reverse_prefix, reverse_reverse]
    exact takeWhile_prefix _
  have hsplit : entries = entries.take (entries.length - behind.length) ++ behind := by
    rw [suffix_iff_eq_drop] at hsuffix
    conv_lhs => rw [← take_append_drop (entries.length - behind.length) entries, ← hsuffix]
  rw [replaceEntries, insertLast]
  by_cases hall : behind.length = entries.length
  · have heq : behind = entries := hsuffix.eq_of_length hall
    refine ⟨entries, [], by rw [append_nil], fun e he => (by cases he), ?_, ?_⟩
    · rw [if_pos hall, append_nil]
    rw [if_pos hall, append_nil, filter_eq_self.mpr]
    intro e he
    rw [hbehind e (by rw [heq]; exact he)]
    rfl
  · refine ⟨_, behind, hsplit, hbehind, ?_, ?_⟩ <;> rw [if_neg hall]

theorem filter_replaceEntries {new : List Entry} (q : Entry → Bool)
    (hnew : ∀ e ∈ new, q e = false) (hq : ∀ e, e.isNamed towlower setting = true → q e = false)
    (entries : List Entry) :
    (replaceEntries towlower setting new entries).filter q = entries.filter q := by
  obtain ⟨front, behind, hentries, hbehind, -, hreplace⟩ :=
    @replaceEntries_eq towlower setting new entries
  have hnone : new.filter q = [] := by
    rw [filter_eq_nil_iff]
    intro e he
    rw [hnew e he]
    exact Bool.false_ne_true
  have hfront : (front.filter fun e => !e.isNamed towlower setting).filter q = front.filter q := by
    rw [filter_filter]
    refine filter_congr fun e _ => ?_
    cases hn : e.isNamed towlower setting with
    | false => simp
    | true => simp [hq e hn]
  rw [hreplace, hentries, filter_append, filter_append, hfront, hnone, append_nil,
    filter_append]

theorem filter_replaceEntries_self {new : List Entry}
    (hnew : ∀ e ∈ new, e.isNamed towlower setting = true) (entries : List Entry) :
    (replaceEntries towlower setting new entries).filter (Entry.isNamed towlower setting) =
      new := by
  obtain ⟨front, behind, -, hbehind, -, hreplace⟩ :=
    @replaceEntries_eq towlower setting new entries
  have hnone : behind.filter (Entry.isNamed towlower setting) = [] := by
    rw [filter_eq_nil_iff]
    intro e he
    rw [hbehind e he]
    exact Bool.false_ne_true
  have hfront : (front.filter fun e => !e.isNamed towlower setting).filter
      (Entry.isNamed towlower setting) = [] := by
    rw [filter_filter, filter_eq_nil_iff]
    intro e _
    simp
  rw [hreplace, filter_append, filter_append, hfront, hnone, append_nil,
    nil_append, filter_eq_self.mpr hnew]

theorem foldl_getStep (hne : setting ≠ []) (entries : List Entry) (value : List WChar) :
    entries.foldl (getStep towlower setting) value =
      ((entries.filter (Entry.isNamed towlower setting)).map Entry.value).foldl joinStep value := by
  induction entries generalizing value with
  | nil => rfl
  | cons e entries ih =>
    rw [foldl_cons, ih, getStep, if_neg hne]
    by_cases h : e.isNamed towlower setting = true
    · rw [if_pos h, filter_cons_of_pos h, map_cons, foldl_cons]
      rfl
    · rw [if_neg h, filter_cons_of_neg h]

/-! ### The text of a section -/

/-- A header is reached, and no blank value throws in front of it. -/
def HeaderReached : List (List WChar) → Prop
  | [] => False
  | raw :: rest =>
    (prepLine raw).1.head? = some 91 ∨ ¬ IniLoad.BlankValue raw ∧ HeaderReached rest

theorem headerReached_iff (ls : List (List WChar)) :
    HeaderReached ls ↔ ∃ entries raw rest, readSection ls = some (entries, raw :: rest) := by
  have hread : HeaderReached ls ↔
      ∃ entries raw rest, readEntries ls = some (entries, raw :: rest) := by
    induction ls with
    | nil =>
      refine iff_of_false id ?_
      rintro ⟨entries, raw, rest, h⟩
      cases h
    | cons raw ls ih =>
      rw [HeaderReached, readEntries]
      by_cases hheader : (prepLine raw).1.head? = some 91
      · rw [if_pos hheader]
        exact iff_of_true (.inl hheader) ⟨[], raw, ls, rfl⟩
      rw [if_neg hheader, or_iff_right hheader, ← IniLoad.readEntry_none_iff hheader]
      cases readEntry (prepLine raw).1 (prepLine raw).2 with
      | none =>
        refine iff_of_false (fun h => h.1 rfl) ?_
        rintro ⟨entries, raw', rest, h⟩
        cases h
      | some entry =>
        rw [ih]
        constructor
        · rintro ⟨-, entries, raw', rest, h⟩
          exact ⟨entry :: entries, raw', rest, by rw [h]; rfl⟩
        rintro ⟨entries, raw', rest, h⟩
        refine ⟨by simp, ?_⟩
        cases hls : readEntries ls with
        | none => rw [hls] at h; cases h
        | some r =>
          obtain ⟨entries', rest'⟩ := r
          rw [hls] at h
          cases h
          exact ⟨entries', raw', rest, rfl⟩
  rw [hread, readSection]
  constructor
  · rintro ⟨entries, raw, rest, h⟩
    exact ⟨_, raw, rest, by rw [h]; rfl⟩
  rintro ⟨entries, raw, rest, h⟩
  cases hls : readEntries ls with
  | none => rw [hls] at h; cases h
  | some r =>
    obtain ⟨entries', rest'⟩ := r
    rw [hls] at h
    cases h
    exact ⟨entries', raw, rest, rfl⟩

/-! ### Setting a value -/

variable (towlower section_ setting)

/-- All entries but those of the setting, in their order, each with the name of its section. -/
def otherEntries : List Section → List (List WChar × Entry)
  | [] => []
  | sec :: rest =>
    if sec.isNamed towlower section_ then
      (sec.entries.filter fun e => !e.isNamed towlower setting).map (sec.name, ·) ++
        rest.flatMap fun sec => sec.entries.map (sec.name, ·)
    else sec.entries.map (sec.name, ·) ++ otherEntries rest

/-- A value list as it is given to `SetValue`, with its length. -/
def given (v : List WChar) : Option (List WChar) := if v = [] then none else some v

/-- What is promised of `SetValue` and `AddValue`.  When a setting is set with success, its value
list comes back and all other settings and entries are as they were; on an error, so are the
sections.  The empty name is no setting but a whole section. -/
structure Keeps (ini : CIniFile) (v : List WChar) : Prop where
  read : ∀ ini', setValue towlower ini section_ setting (given v) = some (ini', .success) →
    setting ≠ [] → getValue towlower ini' section_ setting = (.success, v)
  others : ∀ ini', setValue towlower ini section_ setting (given v) = some (ini', .success) →
    setting ≠ [] → ∀ section' setting', setting' ≠ [] →
      ¬ (sameNoCase towlower section' section_ = true ∧
        sameNoCase towlower setting' setting = true) →
      (getValue towlower ini' section' setting').2 = (getValue towlower ini section' setting').2
  order : ∀ ini', setValue towlower ini section_ setting (given v) = some (ini', .success) →
    setting ≠ [] →
    otherEntries towlower section_ setting ini'.sections =
      otherEntries towlower section_ setting ini.sections
  error : ∀ ini' status, setValue towlower ini section_ setting (given v) = some (ini', status) →
    status ≠ .success → ini'.sections = ini.sections
  addError : ∀ insert, (addValue towlower ini section_ setting v insert).2 ≠ .success →
    (addValue towlower ini section_ setting v insert).1 = ini

/-- The value list neither begins nor ends with a line feed; a text with a header is not given for
a section that is not there. -/
def InOrder (ini : CIniFile) (v : List WChar) : Prop :=
  if setting = [] then
    HeaderReached (lines v []) → ini.sections.any (Section.isNamed towlower section_) = true
  else containsCRLF setting = true ∨ v.head? ≠ some 10 ∧ v.getLast? ≠ some 10

variable {towlower section_ setting}

theorem otherEntries_change {f : List Entry → List Entry}
    (hf : ∀ es, (f es).filter (fun e => !e.isNamed towlower setting) =
      es.filter fun e => !e.isNamed towlower setting) (secs : List Section) :
    otherEntries towlower section_ setting (changeEntries towlower section_ f secs) =
      otherEntries towlower section_ setting secs := by
  induction secs with
  | nil => rfl
  | cons sec secs ih =>
    rw [changeEntries]
    by_cases h : sec.isNamed towlower section_ = true
    · have hchanged : Section.isNamed towlower section_
          { sec with entries := f sec.entries } = true := h
      rw [if_pos h, otherEntries, if_pos hchanged, otherEntries, if_pos h, hf]
    · rw [if_neg h, otherEntries, if_neg h, otherEntries, if_neg h, ih]

theorem otherEntries_getSection (ini : CIniFile) :
    otherEntries towlower section_ setting (getSection towlower ini section_).sections =
      otherEntries towlower section_ setting ini.sections := by
  rw [getSection]
  split
  · rfl
  rename_i hany
  have hempty : ∀ secs : List Section, ¬ secs.any (Section.isNamed towlower section_) = true →
      otherEntries towlower section_ setting (secs ++ [⟨section_, []⟩]) =
        otherEntries towlower section_ setting secs := by
    intro secs
    induction secs with
    | nil =>
      intro _
      have hself : Section.isNamed towlower section_ ⟨section_, []⟩ = true := beq_self_eq_true _
      simp [otherEntries, hself]
    | cons sec secs ih =>
      intro h
      rw [any_cons, Bool.or_eq_true, not_or] at h
      rw [cons_append, otherEntries, if_neg h.1, ih h.2, otherEntries, if_neg h.1]
  exact hempty ini.sections hany

theorem getValue_replaced {new : List Entry} (hnew : ∀ e ∈ new, e.isNamed towlower setting = true)
    (hne : setting ≠ []) (ini : CIniFile) :
    getValue towlower ((getSection towlower ini section_).change towlower section_
        (replaceEntries towlower setting new)) section_ setting =
      (.success, (new.map Entry.value).foldl joinStep []) := by
  have hfind := @find?_changeEntries towlower section_
    (replaceEntries towlower setting new) (getSection towlower ini section_).sections
  rw [find?_getSection, Option.map_some] at hfind
  rw [getValue, CIniFile.change, hfind]
  dsimp only
  rw [foldl_getStep hne, filter_replaceEntries_self hnew]

theorem getValue_replaced_ne {new : List Entry}
    (hnew : ∀ e ∈ new, e.isNamed towlower setting = true) {section' setting' : List WChar}
    (hne' : setting' ≠ [])
    (hother : ¬ (sameNoCase towlower section' section_ = true ∧
      sameNoCase towlower setting' setting = true)) (ini : CIniFile) :
    (getValue towlower ((getSection towlower ini section_).change towlower section_
        (replaceEntries towlower setting new)) section' setting').2 =
      (getValue towlower ini section' setting').2 := by
  by_cases hsec : sameNoCase towlower section' section_ = true
  · have hset : ¬ sameNoCase towlower setting' setting = true := fun h => hother ⟨hsec, h⟩
    have hfilter : ∀ es, (replaceEntries towlower setting new es).filter
        (Entry.isNamed towlower setting') = es.filter (Entry.isNamed towlower setting') := by
      refine filter_replaceEntries _ (fun e he => ?_) fun e he => ?_
      · exact Bool.eq_false_iff.mpr fun h => hset (Entry.sameNoCase_of_isNamed h (hnew e he))
      · exact Bool.eq_false_iff.mpr fun h => hset (Entry.sameNoCase_of_isNamed h he)
    have hfind := @find?_changeEntries towlower section_
      (replaceEntries towlower setting new) (getSection towlower ini section_).sections
    rw [find?_getSection, Option.map_some] at hfind
    rw [getValue, CIniFile.change, Section.isNamed_congr hsec, hfind, getValue,
      Section.isNamed_congr hsec]
    dsimp only
    rw [foldl_getStep hne', hfilter]
    cases ini.sections.find? (Section.isNamed towlower section_) with
    | none => rfl
    | some sec =>
      show _ = sec.entries.foldl (getStep towlower setting') []
      rw [foldl_getStep hne']
      rfl
  · rw [getValue, CIniFile.change, find?_changeEntries_ne hsec, find?_getSection_ne hsec, getValue]

theorem setValue_eq {ini : CIniFile} (hne : setting ≠ []) (hcrlf : ¬ containsCRLF setting = true)
    (v : List WChar) :
    setValue towlower ini section_ setting (given v) =
      some ((getSection towlower ini section_).change towlower section_
        (replaceEntries towlower setting (newEntries setting v)), .success) := by
  rw [setValue, if_neg hcrlf, given]
  by_cases hv : v = []
  · rw [if_pos hv, hv]
    rfl
  · rw [if_neg hv]
    exact if_neg hne

theorem addValue_error (ini : CIniFile) (v : List WChar) (insert : Bool)
    (herror : (addValue towlower ini section_ setting v insert).2 ≠ .success) :
    (addValue towlower ini section_ setting v insert).1 = ini := by
  rw [addValue] at herror ⊢
  split
  · rfl
  · rename_i h
    rw [if_neg h] at herror
    exact absurd rfl herror

theorem setValue_header {ini : CIniFile} {v : List WChar} {entries : List Entry}
    {raw : List WChar} {rest : List (List WChar)}
    (hread : readSection (lines v []) = some (entries, raw :: rest)) :
    setValue towlower ini section_ [] (given v) =
      some (getSection towlower ini section_, .invalidParameter) := by
  have hv : v ≠ [] := fun hnil => by
    rw [hnil] at hread
    cases hread
  rw [setValue, if_neg (by decide), given, if_neg hv]
  dsimp only
  rw [if_pos rfl, hread]

theorem keeps_section_iff (ini : CIniFile) (v : ValueList) :
    Keeps towlower section_ [] ini v.text ↔
      (HeaderReached (lines v.text []) →
        ini.sections.any (Section.isNamed towlower section_) = true) := by
  rw [headerReached_iff]
  constructor
  · rintro h ⟨entries, raw, rest, hread⟩
    have herror := h.error _ _ (setValue_header hread) (by decide)
    exact (getSection_sections_eq_iff ini).mp herror
  intro h
  refine ⟨fun _ _ hne => absurd rfl hne, fun _ _ hne => absurd rfl hne,
    fun _ _ hne => absurd rfl hne, fun ini' status hcall herror => ?_, addValue_error ini v.text⟩
  have hv : v.text ≠ [] := fun hnil => by
    rw [hnil, given, if_pos rfl] at hcall
    cases hcall
    exact herror rfl
  rw [setValue, if_neg (by decide), given, if_neg hv] at hcall
  dsimp only at hcall
  cases hread : readSection (lines v.text []) with
  | none => rw [hread] at hcall; cases hcall
  | some r =>
    obtain ⟨entries, rest⟩ := r
    rw [hread] at hcall
    cases rest with
    | nil =>
      cases hcall
      exact absurd rfl herror
    | cons raw rest =>
      cases hcall
      exact (getSection_sections_eq_iff ini).mpr (h ⟨entries, raw, rest, hread⟩)

theorem keeps_refused {ini : CIniFile} (hcrlf : containsCRLF setting = true) (v : List WChar) :
    Keeps towlower section_ setting ini v := by
  have hcall : setValue towlower ini section_ setting (given v) =
      some (ini, .invalidParameter) := by
    rw [setValue, if_pos hcrlf]
  refine ⟨?_, ?_, ?_, ?_, addValue_error ini v⟩
  · intro ini' h
    rw [hcall] at h
    cases h
  · intro ini' h
    rw [hcall] at h
    cases h
  · intro ini' h
    rw [hcall] at h
    cases h
  · intro ini' status h _
    rw [hcall] at h
    cases h
    rfl

theorem keeps_setting_iff {ini : CIniFile} (hne : setting ≠ [])
    (hcrlf : ¬ containsCRLF setting = true) (v : ValueList) :
    Keeps towlower section_ setting ini v.text ↔ v.text.head? ≠ some 10 ∧
      v.text.getLast? ≠ some 10 := by
  have hcall := @setValue_eq towlower section_ setting ini hne hcrlf v.text
  have hnew : ∀ e ∈ newEntries setting v.text, e.isNamed towlower setting = true := by
    intro e he
    obtain ⟨line, -, rfl⟩ := mem_map.mp he
    exact beq_self_eq_true _
  have hread := @getValue_replaced towlower section_ setting _ hnew hne ini
  rw [v.map_value_newEntries] at hread
  rw [← foldl_joinStep_eq_iff v.text]
  constructor
  · intro h
    have hvalue := h.read _ hcall hne
    rw [hread] at hvalue
    exact congrArg Prod.snd hvalue
  · intro h
    refine ⟨?_, ?_, ?_, ?_, addValue_error ini v.text⟩
    · intro ini' hini' _
      rw [hcall] at hini'
      cases hini'
      rw [hread, h]
    · intro ini' hini' _ section' setting' hne' hother
      rw [hcall] at hini'
      cases hini'
      exact getValue_replaced_ne hnew hne' hother ini
    · intro ini' hini' _
      rw [hcall] at hini'
      cases hini'
      refine (otherEntries_change (fun es => ?_) _).trans (otherEntries_getSection ini)
      refine filter_replaceEntries _ (fun e he => ?_) (fun e he => ?_) es
      · rw [hnew e he]
        rfl
      · rw [he]
        rfl
    · intro ini' status hini' herror
      rw [hcall] at hini'
      cases hini'
      exact absurd rfl herror

/-- **When `SetValue` and `AddValue` keep what is promised of them.** -/
theorem setValue_keeps_iff (towlower : WChar → WChar) (ini : CIniFile)
    (section_ setting : List WChar) (v : ValueList) :
    Keeps towlower section_ setting ini v.text ↔ InOrder towlower section_ setting ini v.text := by
  rw [InOrder]
  by_cases hsetting : setting = []
  · subst hsetting
    rw [if_pos rfl]
    exact keeps_section_iff ini v
  · rw [if_neg hsetting]
    by_cases hcrlf : containsCRLF setting = true
    · exact iff_of_true (keeps_refused hcrlf v.text) (.inl hcrlf)
    · rw [or_iff_right hcrlf]
      exact keeps_setting_iff hsetting hcrlf v

end Names

/-- The value list of nothing and `a`. -/
def emptyFirst : ValueList := ⟨wide "\na".toList, by decide⟩

/-- The empty value at the front is lost, and a section is left behind by an error. -/
theorem setValue_forgets :
    ¬ Keeps asciiLower (wide "Box".toList) (wide "n".toList) ⟨0, []⟩ emptyFirst.text ∧
      ¬ Keeps asciiLower (wide "Box".toList) [] ⟨0, []⟩ (wide "[x]".toList) := by
  constructor
  · intro h
    have hread := h.read ⟨0, [⟨wide "Box".toList, [⟨wide "n".toList, []⟩,
      ⟨wide "n".toList, wide "a".toList⟩]⟩]⟩ (by decide) (by decide)
    exact absurd hread (by decide)
  · intro h
    exact absurd (h.error ⟨0, [⟨wide "Box".toList, []⟩]⟩ .invalidParameter (by decide) (by decide))
      (by decide)

end Sandboxie.Ini
