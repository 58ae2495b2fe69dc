import Sandboxie.Drv.ConfCopy
import Sandboxie.Lib.Worklist

/-!
# What a merge of templates gives

`Conf_Merge_Templates` goes over the `Template=` settings of a section, and so also over those
that a template has put there: a queue of names.  A template gives its settings without those
whose name begins with `Tmpl.`, and comes with the templates that it names.  A template that is
the section itself has always one more setting to copy, so that such a merge does not return.
-/

namespace Sandboxie.Conf

open Text Worklist List

variable {towlower : WChar → WChar}

def Setting.pair (s : Setting) : List WChar × List WChar := (s.name, s.value)

def Section.derived (sec : Section) : List (List WChar × List WChar) :=
  (sec.settings.filter fun s => s.fromTemplate).map Setting.pair

section Names

variable (towlower)

def Section.templates (sec : Section) : List (List WChar) :=
  ((sec.settingsMap.keyIter towlower template).filter Setting.user).map Setting.value

def copied (s : Setting) : Bool := !hasPrefix towlower tmpl s.name

def own (d : ConfData) (name : List WChar) : List (List WChar × List WChar) :=
  match templateSection towlower d name with
  | none => []
  | some t => (t.settings.filter (copied towlower)).map Setting.pair

def named (ps : List (List WChar × List WChar)) : List (List WChar) :=
  (ps.filter fun p => sameKey towlower template p.1).map Prod.snd

def nested (d : ConfData) (name : List WChar) : List (List WChar) :=
  named towlower (own towlower d name)

def Apart (d : ConfData) (id : Nat) (name : List WChar) : Prop :=
  ∀ t, templateSection towlower d name = some t → t.id ≠ id

/-- The settings that the templates with some names give to a section. -/
abbrev Merges (d : ConfData) (id : Nat) :
    List (List WChar) → List (List WChar × List WChar) → Prop :=
  Visits (Apart towlower d id) (own towlower d) (nested towlower d)

end Names

/-! ### The configuration in a merge -/

variable {n : Nat} {sec : Section} {d : ConfData}

theorem section?_put_eq (id : Nat) :
    (d.put sec n).section? id = (d.section? id).map fun t => if t.id = sec.id then sec else t := by
  have hid : ∀ t : Section, (if t.id = sec.id then sec else t).id = t.id := by
    intro t
    split
    · rename_i h
      exact h.symm
    · rfl
  show (d.sections.map fun t => if t.id = sec.id then sec else t).find? _ = _
  rw [find?_map]
  refine congrArg _ (congrArg (d.sections.find? ·) (funext fun t => ?_))
  show ((if t.id = sec.id then sec else t).id == id) = _
  rw [hid]

theorem templateSection_put (name : List WChar) :
    templateSection towlower (d.put sec n) name =
      (templateSection towlower d name).map fun t => if t.id = sec.id then sec else t := by
  unfold templateSection
  split
  · unfold findSections
    have hmap : (d.put sec n).sectionsMap = d.sectionsMap := rfl
    rw [hmap]
    cases d.sectionsMap.mapGet towlower (template_ ++ name) with
    | none => rfl
    | some node => exact section?_put_eq node.id
  · rfl

theorem apart_put {d : ConfData} {sec : Section} {n : Nat} {name : List WChar}
    (h : Apart towlower d sec.id name) :
    Apart towlower (d.put sec n) sec.id name ∧
      own towlower (d.put sec n) name = own towlower d name := by
  unfold Apart own
  rw [templateSection_put]
  cases htmpl : templateSection towlower d name with
  | none => exact ⟨nofun, rfl⟩
  | some t =>
    have hne := h t htmpl
    rw [Option.map_some, if_neg hne]
    exact ⟨fun t' ht' => Option.some.inj ht' ▸ hne, rfl⟩

theorem not_apart_put {name : List WChar} (h : ¬Apart towlower d sec.id name) :
    templateSection towlower (d.put sec n) name = some sec := by
  unfold Apart at h
  push Not at h
  obtain ⟨t, htmpl, hid⟩ := h
  rw [templateSection_put, htmpl, Option.map_some, if_pos hid]

variable {ps : List (List WChar × List WChar)}

theorem merges_put {names : List (List WChar)} :
    Merges towlower (d.put sec n) sec.id names ps ↔ Merges towlower d sec.id names ps := by
  constructor
  · refine Visits.congr fun name hput => ?_
    by_cases h : Apart towlower d sec.id name
    · have hown := (@apart_put towlower d sec n name h).2
      exact ⟨h, hown.symm, by rw [nested, nested, hown]⟩
    · exact absurd rfl (hput sec (not_apart_put h))
  · refine Visits.congr fun name h => ?_
    obtain ⟨hput, hown⟩ := @apart_put towlower d sec n name h
    exact ⟨hput, hown, by rw [nested, nested, hown]⟩

/-! ### One template -/

def Adds (ss : List Setting) (ps : List (List WChar × List WChar)) : Prop :=
  (∀ s ∈ ss, s.fromTemplate = true) ∧ ss.map Setting.pair = ps

theorem adds_nil : Adds [] [] := ⟨nofun, rfl⟩

variable {ss : List Setting}

theorem Adds.append {ss' : List Setting} {ps ps' : List (List WChar × List WChar)}
    (h : Adds ss ps) (h' : Adds ss' ps') : Adds (ss ++ ss') (ps ++ ps') :=
  ⟨forall_mem_append.mpr ⟨h.1, h'.1⟩, by rw [map_append, h.2, h'.2]⟩

theorem Adds.named (h : Adds ss ps) :
    (ss.filter fun s => sameKey towlower template s.name).map Setting.value =
      named towlower ps := by
  rw [Conf.named, ← h.2, filter_map, map_map]
  rfl

variable {d : ConfData} {sec : Section}

/-- The settings of another section are copied from the one at `k` on. -/
theorem copyTemplate_eq {t : Section} (ht : d.section? t.id = some t) (hne : t.id ≠ sec.id) :
    ∀ (l : List Setting) {k n : Nat} {ss : List Setting}, t.settings.drop k = l →
      ∃ ss' n', Adds ss' ((l.filter (copied towlower)).map Setting.pair) ∧
        ∀ fuel, copyTemplate towlower t.id sec.id fuel (d.put (sec.addAll ss) n) k =
          if l.length < fuel then some (d.put (sec.addAll (ss ++ ss')) n') else none := by
  have hsec : ∀ (ss : List Setting) (n : Nat),
      (d.put (sec.addAll ss) n).section? t.id = some t := by
    intro ss n
    rw [section?_put_eq, ht, Option.map_some, (addAll_same ss sec).id, if_neg hne]
  intro l
  induction l with
  | nil =>
    intro k n ss hdrop
    refine ⟨[], n, adds_nil, fun fuel => ?_⟩
    cases fuel with
    | zero => rfl
    | succ fuel =>
      have hget : t.settings[k]? = none := by
        rw [← head?_drop, hdrop]
        rfl
      rw [copyTemplate, hsec, Option.bind_some, hget, append_nil]
      rfl
  | cons s l ih =>
    intro k n ss hdrop
    have hget : t.settings[k]? = some s := by
      rw [← head?_drop, hdrop]
      rfl
    have hnext : t.settings.drop (k + 1) = l := by
      rw [← tail_drop, hdrop]
      rfl
    by_cases hpre : hasPrefix towlower tmpl s.name = true
    · obtain ⟨ss', n', hadds, hrun⟩ := @ih (k + 1) n ss hnext
      have hskip : ¬copied towlower s = true := by
        rw [copied, hpre]
        decide
      refine ⟨ss', n', by rwa [filter_cons_of_neg hskip], fun fuel => ?_⟩
      cases fuel with
      | zero => rfl
      | succ fuel =>
        rw [copyTemplate, hsec, Option.bind_some, hget]
        simp only [hpre, if_true, hrun, length_cons, Nat.add_lt_add_iff_right]
    · obtain ⟨ss', n', hadds, hrun⟩ := @ih (k + 1) (n + 1)
        (ss ++ [⟨n, s.name, s.value, true⟩]) hnext
      have hcopied : copied towlower s = true := by
        rw [copied, Bool.not_eq_true _ |>.mp hpre]
        rfl
      refine ⟨⟨n, s.name, s.value, true⟩ :: ss', n', ?_, fun fuel => ?_⟩
      · rw [filter_cons_of_pos hcopied]
        have hfirst : Adds [⟨n, s.name, s.value, true⟩] [s.pair] :=
          ⟨fun x hx => by rw [mem_singleton.mp hx], rfl⟩
        exact hfirst.append hadds
      · cases fuel with
        | zero => rfl
        | succ fuel =>
          have hadd := addSetting_put d (sec.addAll ss) n s.name s.value false true
          rw [(addAll_same ss sec).id, ← Section.addAll_append] at hadd
          rw [copyTemplate, hsec, Option.bind_some, hget]
          simp only [hpre, Bool.false_eq_true, if_false, hadd, hrun, length_cons,
            Nat.add_lt_add_iff_right, append_assoc, singleton_append]

theorem mergeTemplate_eq (hd : DataOk towlower d) {name : List WChar}
    (hname : Apart towlower d sec.id name) (ss : List Setting) (n : Nat) :
    ∃ ss' n' b, Adds ss' (own towlower d name) ∧
      ∀ fuel, mergeTemplate towlower fuel (d.put (sec.addAll ss) n) name sec.id =
        if b ≤ fuel then some (d.put (sec.addAll (ss ++ ss')) n') else none := by
  unfold mergeTemplate own
  rw [templateSection_put]
  cases htmpl : templateSection towlower d name with
  | none => exact ⟨[], n, 0, adds_nil, fun fuel => by rw [append_nil]; rfl⟩
  | some t =>
    have hne := hname t htmpl
    have hmem : t ∈ d.sections := by
      unfold templateSection at htmpl
      split at htmpl
      · exact findSections_mem htmpl
      · cases htmpl
    obtain ⟨ss', n', hadds, hrun⟩ :=
      @copyTemplate_eq towlower d sec t (hd.section?_eq hmem) hne t.settings 0 n ss rfl
    refine ⟨ss', n', t.settings.length + 1, hadds, fun fuel => ?_⟩
    simp only [Option.map_some, (addAll_same ss sec).id, if_neg hne, hrun, Nat.lt_iff_add_one_le]

/-! ### A template that is the section itself -/

theorem copyTemplate_self (hsec : sec ∈ d.sections) : ∀ (fuel : Nat) {k n : Nat} {x : Section}
    {s : Setting}, x.id = sec.id → s ∈ x.settings.drop k → copied towlower s = true →
      copyTemplate towlower sec.id sec.id fuel (d.put x n) k = none := by
  intro fuel
  induction fuel with
  | zero => exact fun _ _ _ => rfl
  | succ fuel ih =>
    intro k n x s hid hs hcopied
    have hfind : (d.put x n).section? sec.id = some x := by
      rw [← hid]
      exact section?_put hsec hid
    rw [copyTemplate, hfind, Option.bind_some]
    cases hget : x.settings[k]? with
    | none =>
      rw [List.drop_eq_nil_of_le (List.getElem?_eq_none_iff.mp hget)] at hs
      cases hs
    | some oset =>
      obtain ⟨hlt, hat⟩ := List.getElem?_eq_some_iff.mp hget
      dsimp only
      split
      · rename_i hpre
        rw [List.drop_eq_getElem_cons hlt, hat] at hs
        rcases List.mem_cons.mp hs with rfl | hs
        · rw [copied, hpre] at hcopied
          cases hcopied
        · exact ih hid hs hcopied
      · rename_i hpre
        rw [← hid, addSetting_put, hid]
        -- the copy is ahead now
        refine ih (s := ⟨n, oset.name, oset.value, true⟩) hid ?_ ?_
        · show _ ∈ (x.settings ++ [_]).drop (k + 1)
          rw [List.drop_append_of_le_length hlt]
          exact List.mem_append_right _ (List.mem_singleton.mpr rfl)
        · rw [copied, Bool.not_eq_true _ |>.mp hpre]
          rfl

theorem hasPrefix_congr {p s t : List WChar} (h : sameNoCase towlower s t = true) :
    hasPrefix towlower p s = hasPrefix towlower p t := by
  rw [hasPrefix, hasPrefix, sameNoCase, sameNoCase, map_take, map_take,
    (sameNoCase_iff towlower).mp h]

theorem copied_of_template (htemplate : hasPrefix towlower tmpl template = false) {s : Setting}
    (hs : sameNoCase towlower s.name template = true) : copied towlower s = true := by
  rw [copied, hasPrefix_congr hs, htemplate]
  rfl

theorem mergeTemplate_self (hsec : sec ∈ d.sections) {name : List WChar}
    (hname : ¬Apart towlower d sec.id name) {x : Section} (hid : x.id = sec.id) {s : Setting}
    (hs : s ∈ x.settings) (hcopied : copied towlower s = true) (fuel n : Nat) :
    mergeTemplate towlower fuel (d.put x n) name sec.id = none := by
  rw [← hid] at hname
  unfold mergeTemplate
  rw [not_apart_put hname]
  dsimp only
  rw [hid]
  exact copyTemplate_self hsec fuel hid (by rwa [drop_zero]) hcopied

/-! ### The queue of templates -/

/-- What is still to be merged at the setting `k`. -/
def Section.ahead (towlower : WChar → WChar) (sec : Section) (k : Nat) : List (List WChar) :=
  ((sec.settingsMap.keyIter towlower template).drop k).map Setting.value

theorem ahead_addAll {k : Nat} {ss' : List Setting}
    {s : Setting}
    (hget : ((sec.addAll ss).settingsMap.keyIter towlower template)[k]? = some s)
    (hadds : Adds ss' ps) :
    (sec.addAll ss).ahead towlower k = s.value :: (sec.addAll ss).ahead towlower (k + 1) ∧
      (sec.addAll (ss ++ ss')).ahead towlower (k + 1) =
        (sec.addAll ss).ahead towlower (k + 1) ++ named towlower ps := by
  obtain ⟨hlt, hat⟩ := List.getElem?_eq_some_iff.mp hget
  constructor
  · rw [Section.ahead, List.drop_eq_getElem_cons hlt, hat]
    rfl
  · have hsplit : sec.addAll (ss ++ ss') = (sec.addAll ss).addAll ss' := List.foldl_append
    rw [Section.ahead, Section.ahead, hsplit, keyIter_addAll, List.drop_append_of_le_length hlt,
      List.map_append, hadds.named]

theorem mem_of_ahead (hd : DataOk towlower d) (hsec : sec ∈ d.sections) {k : Nat} {s : Setting}
    (hget : ((sec.addAll ss).settingsMap.keyIter towlower template)[k]? = some s) :
    s ∈ (sec.addAll ss).settings ∧ sameNoCase towlower s.name template = true := by
  have hmem := mem_of_getElem? hget
  rw [keyIter_addAll] at hmem
  rcases mem_append.mp hmem with hmem | hmem
  · obtain ⟨hnode, hkey⟩ := StrMap.mem_keyIter.mp hmem
    have hold := ((hd.settings sec hsec).mem s).mp hnode
    exact ⟨(mem_addAll ss).mpr (Or.inl hold), (sameKey_iff.mp hkey).2⟩
  · obtain ⟨hnew, hkey⟩ := mem_filter.mp hmem
    exact ⟨(mem_addAll ss).mpr (Or.inr hnew), (sameKey_iff.mp hkey).2⟩

theorem mergeLoop_merges (htemplate : hasPrefix towlower tmpl template = false)
    (hd : DataOk towlower d) (hsec : sec ∈ d.sections) : ∀ (fuel : Nat) {k n : Nat}
      {ss : List Setting} {d' : ConfData},
      mergeLoop towlower sec.id sec.id fuel (d.put (sec.addAll ss) n) k = some d' →
        ∃ ss' n' ps, Adds ss' ps ∧ Merges towlower d sec.id ((sec.addAll ss).ahead towlower k) ps ∧
          d' = d.put (sec.addAll (ss ++ ss')) n' := by
  intro fuel
  induction fuel with
  | zero => exact fun h => nomatch h
  | succ fuel ih =>
    intro k n ss d' h
    have hfind : (d.put (sec.addAll ss) n).section? sec.id = some (sec.addAll ss) := by
      rw [← (addAll_same ss sec).id]
      exact section?_put hsec (addAll_same ss sec).id
    rw [mergeLoop, hfind, Option.bind_some] at h
    cases hget : ((sec.addAll ss).settingsMap.keyIter towlower template)[k]? with
    | none =>
      rw [hget] at h
      refine ⟨[], n, [], adds_nil, ?_, by rw [append_nil]; exact (Option.some.inj h).symm⟩
      rw [Section.ahead, drop_eq_nil_of_le (getElem?_eq_none_iff.mp hget)]
      exact .nil
    | some s =>
      rw [hget] at h
      dsimp only at h
      by_cases hname : Apart towlower d sec.id s.value
      · obtain ⟨ss₁, n₁, b, hadds, hrun⟩ := mergeTemplate_eq hd hname ss n
        rw [hrun] at h
        split at h
        · cases h
        rename_i d₁ heq
        split at heq
        · cases heq
          obtain ⟨ss₂, n₂, ps, hadds₂, hmerges, rfl⟩ := ih h
          obtain ⟨hhead, hrest⟩ := ahead_addAll hget hadds
          rw [hrest] at hmerges
          refine ⟨ss₁ ++ ss₂, n₂, _, hadds.append hadds₂, ?_, by rw [append_assoc]⟩
          rw [hhead]
          exact .cons hname hmerges
        · cases heq
      · obtain ⟨hs, hkey⟩ := mem_of_ahead hd hsec hget
        rw [mergeTemplate_self hsec hname (addAll_same ss sec).id hs
          (copied_of_template htemplate hkey)] at h
        cases h

theorem mergeLoop_returns (hd : DataOk towlower d) (hsec : sec ∈ d.sections)
    {names : List (List WChar)} {ps : List (List WChar × List WChar)}
    (h : Merges towlower d sec.id names ps) : ∀ {k n : Nat} {ss : List Setting},
      (sec.addAll ss).ahead towlower k = names →
        ∃ ss' n' b, Adds ss' ps ∧ ∀ fuel ≥ b,
          mergeLoop towlower sec.id sec.id fuel (d.put (sec.addAll ss) n) k =
            some (d.put (sec.addAll (ss ++ ss')) n') := by
  have hfind : ∀ (ss : List Setting) (n : Nat),
      (d.put (sec.addAll ss) n).section? sec.id = some (sec.addAll ss) := by
    intro ss n
    rw [← (addAll_same ss sec).id]
    exact section?_put hsec (addAll_same ss sec).id
  induction h with
  | nil =>
    intro k n ss hahead
    have hget : ((sec.addAll ss).settingsMap.keyIter towlower template)[k]? = none :=
      getElem?_eq_none_iff.mpr (drop_eq_nil_iff.mp (map_eq_nil_iff.mp hahead))
    refine ⟨[], n, 1, adds_nil, fun fuel hfuel => ?_⟩
    obtain ⟨fuel, rfl⟩ : ∃ f, fuel = f + 1 := ⟨fuel - 1, by omega⟩
    rw [mergeLoop, hfind, Option.bind_some, hget, append_nil]
  | @cons name names ps hname _ ih =>
    intro k n ss hahead
    cases hget : ((sec.addAll ss).settingsMap.keyIter towlower template)[k]? with
    | none =>
      rw [Section.ahead, drop_eq_nil_of_le (getElem?_eq_none_iff.mp hget)] at hahead
      cases hahead
    | some s =>
      obtain ⟨ss₁, n₁, b₁, hadds, hrun⟩ := mergeTemplate_eq hd hname ss n
      obtain ⟨hhead, hrest⟩ := ahead_addAll hget hadds
      rw [hhead] at hahead
      cases hahead
      obtain ⟨ss₂, n₂, b₂, hadds₂, hrun₂⟩ := @ih (k + 1) n₁ (ss ++ ss₁) hrest
      refine ⟨ss₁ ++ ss₂, n₂, max b₁ b₂ + 1, hadds.append hadds₂, fun fuel hfuel => ?_⟩
      obtain ⟨fuel, rfl⟩ : ∃ f, fuel = f + 1 := ⟨fuel - 1, by omega⟩
      rw [mergeLoop, hfind, Option.bind_some, hget]
      dsimp only
      rw [hrun, if_pos (by omega)]
      dsimp only
      rw [hrun₂ fuel (by omega), append_assoc]

/-! ### The settings of a section after a merge -/

theorem settings_addAll (ss : List Setting) : ∀ sec : Section,
    (sec.addAll ss).settings = sec.settings ++ ss := by
  induction ss with
  | nil => exact fun sec => (append_nil _).symm
  | cons s ss ih =>
    intro sec
    show ((sec.add s false).addAll ss).settings = _
    rw [ih]
    exact append_assoc sec.settings [s] ss

theorem derived_addAll (h : Adds ss ps) : (sec.addAll ss).derived = sec.derived ++ ps := by
  rw [Section.derived, settings_addAll, filter_append, map_append,
    filter_eq_self.mpr h.1, h.2]
  rfl

theorem derived_withoutTemplates (hok : sec.Ok n) : sec.withoutTemplates.derived = [] := by
  refine map_eq_nil_iff.mpr (filter_eq_nil_iff.mpr fun s hs htmpl => ?_)
  rw [((mem_withoutTemplates hok).mp hs).2] at htmpl
  cases htmpl

theorem templates_addAll (h : Adds ss ps) :
    (sec.addAll ss).templates towlower = sec.templates towlower := by
  rw [Section.templates, keyIter_addAll, filter_append,
    filter_user_templates fun s hs => h.1 s (mem_filter.mp hs).1, append_nil]
  rfl

theorem templates_withoutTemplates (hok : sec.Ok n) :
    sec.withoutTemplates.templates towlower = sec.templates towlower := by
  rw [Section.templates, keyIter_withoutTemplates hok, filter_filter]
  simp only [Bool.and_self]
  rfl

theorem ahead_withoutTemplates (hok : sec.Ok n) :
    sec.withoutTemplates.ahead towlower 0 = sec.templates towlower := by
  rw [Section.ahead, drop_zero, keyIter_withoutTemplates hok]
  rfl

/-! ### A fresh merge -/

variable (towlower) in
/-- The settings from templates are those that a merge gives that begins without any. -/
def InSync (d : ConfData) (sec : Section) : Prop :=
  ∃ fuel d' sec', mergeTemplates towlower fuel (removeTemplates d sec.id) sec.id sec.id = some d' ∧
    d'.section? sec.id = some sec' ∧ sec'.derived.Perm sec.derived

/-- **A fresh merge** gives what the templates of the section give. -/
theorem inSync_iff (htemplate : hasPrefix towlower tmpl template = false)
    (hd : DataOk towlower d) (hsec : sec ∈ d.sections) : InSync towlower d sec ↔
      ∃ ps, Merges towlower d sec.id (sec.templates towlower) ps ∧ ps.Perm sec.derived := by
  have hok := hd.settings sec hsec
  have hsame := withoutTemplates_same sec
  have hremove : removeTemplates d sec.id =
      d.put (sec.withoutTemplates.addAll []) d.nextId := by
    have hput := removeTemplates_put (n := d.nextId) hsec (Eq.refl sec.id)
    rwa [put_self hd hsec] at hput
  have hd' : DataOk towlower (d.put sec.withoutTemplates d.nextId) := by
    have hedits := (@removeTemplates_edits towlower d sec.id).dataOk hd
    rwa [hremove] at hedits
  have hmem : sec.withoutTemplates ∈ (d.put sec.withoutTemplates d.nextId).sections :=
    (mem_put hsec hsame.id).mpr (Or.inr rfl)
  have hmerges : ∀ ps, Merges towlower (d.put sec.withoutTemplates d.nextId)
      sec.withoutTemplates.id (sec.templates towlower) ps ↔
        Merges towlower d sec.id (sec.templates towlower) ps := by
    intro ps
    rw [merges_put, hsame.id]
  have hput : ∀ x n, x.id = sec.withoutTemplates.id →
      (d.put sec.withoutTemplates d.nextId).put x n = d.put x n := fun x n hid => put_put hid
  have hafter : ∀ {ss ps} (n : Nat), Adds ss ps →
      (d.put (sec.withoutTemplates.addAll ss) n).section? sec.id =
          some (sec.withoutTemplates.addAll ss) ∧
        (sec.withoutTemplates.addAll ss).derived = ps := by
    intro ss ps n hadds
    have hid : (sec.withoutTemplates.addAll ss).id = sec.id :=
      (addAll_same ss _).id.trans hsame.id
    refine ⟨?_, ?_⟩
    · rw [← hid]
      exact section?_put hsec hid
    · rw [derived_addAll hadds, derived_withoutTemplates hok]
      rfl
  constructor
  · rintro ⟨fuel, d', sec', hrun, hfind, hperm⟩
    rw [hremove, mergeTemplates, ← hsame.id, ← hput _ d.nextId (addAll_same [] _).id] at hrun
    obtain ⟨ss, n, ps, hadds, hps, rfl⟩ := mergeLoop_merges htemplate hd' hmem fuel hrun
    rw [nil_append, hput _ n (addAll_same ss _).id, (hafter n hadds).1] at hfind
    rw [← Option.some.inj hfind, (hafter n hadds).2] at hperm
    refine ⟨ps, (hmerges ps).mp ?_, hperm⟩
    rw [← ahead_withoutTemplates hok]
    exact hps
  · rintro ⟨ps, hps, hperm⟩
    obtain ⟨ss, n, b, hadds, hrun⟩ := @mergeLoop_returns towlower _ _ hd' hmem _ _
      ((hmerges ps).mpr hps) 0 d.nextId [] (ahead_withoutTemplates hok)
    refine ⟨b, _, _, ?_, (hafter n hadds).1, ?_⟩
    · rw [hremove, mergeTemplates, ← hsame.id, ← hput _ d.nextId (addAll_same [] _).id,
        hrun b (Nat.le_refl b), hput _ n (addAll_same _ _).id]
      rfl
    · rw [(hafter n hadds).2]
      exact hperm

end Sandboxie.Conf
