import Sandboxie.Drv.ConfMerge

/-!
# Updates of the setting `Template`

`Conf_Update` merges all templates again when one of them is removed, and when one is set or
appended it merges only that one.  That is the same when the template comes with no others, when
the values in front of it are gone, and, for an append, when the settings from templates were up to
date.  The loop that removes the old values ends at the first one from a template, and a value that
is appended goes behind those; `Conf_Merge_Templates` looks for the name as `Template` is
written.  With no value `Conf_Merge_Template` is called with a NULL pointer.
-/

namespace Sandboxie.Conf

open Text Worklist List

variable {towlower : WChar → WChar}

/-! ### Where an update stops -/

/-- Why an update does not return: it runs on, or `wcslen` is called with NULL. -/
inductive Stop
  | running
  | nullValue
deriving DecidableEq

/-- A merge that returns, or runs on. -/
def returned : Option ConfData → Except Stop ConfData
  | some d => .ok d
  | none => .error .running

section Names

variable (towlower)

/-- `changeTemplates`, with the reason why it stops. -/
def changeTemplatesUntil (fuel : Nat) (d : ConfData) (id : Nat) (value : Option (List WChar))
    (mode : Mode) : Except Stop ConfData :=
  let d := if mode = .appendValue then d else removeTemplates d id
  if mode = .updateTemplates ∨ (mode = .removeValue ∧ value.isSome = true) then
    returned (mergeTemplates towlower fuel d id id)
  else if mode ≠ .removeValue then
    match value with
    | some v => returned (mergeTemplate towlower fuel d v id)
    | none => .error .nullValue
  else .ok d

/-- `updateSection`, with the reason why it stops. -/
def updateSectionUntil (fuel : Nat) (d : ConfData) (sec : Section)
    (name value : Option (List WChar)) (mode : Mode) : Except Stop ConfData :=
  if mode = .removeSection then .ok (dropSection towlower d sec)
  else
    let d := changeNamed towlower d sec.id name value mode
    if aboutTemplates towlower name mode then
      changeTemplatesUntil towlower fuel d sec.id value mode
    else .ok d

/-- A call of `Conf_Update`. -/
structure Call where
  sectionName : List WChar
  name : Option (List WChar)
  value : Option (List WChar)
  mode : Mode

/-- `Conf_Update`, with the reason why it stops. -/
def Call.run (c : Call) (fuel : Nat) (d : ConfData) : Except Stop ConfData :=
  match findSections towlower d c.sectionName with
  | some sec => updateSectionUntil towlower fuel d sec c.name c.value c.mode
  | none =>
    if c.mode = .removeValue ∨ c.mode = .removeSection then .ok d
    else
      updateSectionUntil towlower fuel (addMarked d c.sectionName true Section.markVirtual)
        (newSection d.nextId c.sectionName).markVirtual c.name c.value c.mode

end Names

theorem returned_ok {r : Option ConfData} {d : ConfData} : returned r = .ok d ↔ r = some d := by
  cases r with
  | none => exact ⟨nofun, nofun⟩
  | some a =>
    refine ⟨fun h => congrArg some (Except.ok.inj h), fun h => ?_⟩
    rw [Option.some.inj h]
    rfl

theorem returned_ne_null (r : Option ConfData) : returned r ≠ .error .nullValue := by
  cases r <;> exact nofun

variable {name value : Option (List WChar)} {fuel : Nat} {mode : Mode}

theorem updateSectionUntil_ok {d d' : ConfData} {sec : Section} :
    updateSectionUntil towlower fuel d sec name value mode = .ok d' ↔
      updateSection towlower fuel d sec name value mode = some d' := by
  unfold updateSectionUntil updateSection
  by_cases hdrop : mode = .removeSection
  · rw [if_pos hdrop, if_pos hdrop]
    exact @returned_ok (some _) d'
  rw [if_neg hdrop, if_neg hdrop]
  split
  · unfold changeTemplatesUntil changeTemplates
    dsimp only
    split
    · exact returned_ok
    · split
      · cases value with
        | none => exact ⟨nofun, nofun⟩
        | some v => exact returned_ok
      · exact @returned_ok (some _) d'
  · exact @returned_ok (some _) d'

theorem Call.run_ok {c : Call} {d d' : ConfData} :
    c.run towlower fuel d = .ok d' ↔
      confUpdate towlower fuel d c.sectionName c.name c.value c.mode = some d' := by
  unfold Call.run confUpdate
  cases findSections towlower d c.sectionName with
  | some sec => exact updateSectionUntil_ok
  | none =>
    dsimp only
    split
    · exact @returned_ok (some d) d'
    · exact updateSectionUntil_ok

theorem updateSectionUntil_null {d : ConfData} {sec : Section} :
    updateSectionUntil towlower fuel d sec name value mode = .error .nullValue ↔
      aboutTemplates towlower name mode = true ∧ value = none ∧
        (mode = .updateValue ∨ mode = .appendValue) := by
  unfold updateSectionUntil
  by_cases hdrop : mode = .removeSection
  · rw [if_pos hdrop, hdrop]
    exact ⟨nofun, fun h => by rcases h.2.2 with h | h <;> cases h⟩
  rw [if_neg hdrop]
  split
  · rename_i habout
    unfold changeTemplatesUntil
    dsimp only
    cases value with
    | some v =>
      refine ⟨fun h => ?_, fun h => nomatch h.2.1⟩
      split at h
      · exact absurd h (returned_ne_null _)
      · split at h
        · exact absurd h (returned_ne_null _)
        · cases h
    | none =>
      cases mode with
      | updateValue => exact ⟨fun _ => ⟨habout, rfl, .inl rfl⟩, fun _ => rfl⟩
      | appendValue => exact ⟨fun _ => ⟨habout, rfl, .inr rfl⟩, fun _ => rfl⟩
      | removeValue => exact ⟨nofun, fun h => by rcases h.2.2 with h | h <;> cases h⟩
      | removeSection => exact absurd rfl hdrop
      | updateTemplates =>
        exact ⟨fun h => absurd h (returned_ne_null _),
          fun h => by rcases h.2.2 with h | h <;> cases h⟩
  · rename_i habout
    exact ⟨nofun, fun h => absurd h.1 habout⟩

/-- **A missing value** is read exactly when the setting `Template` is set or appended. -/
theorem Call.run_null {c : Call} {d : ConfData} :
    c.run towlower fuel d = .error .nullValue ↔
      aboutTemplates towlower c.name c.mode = true ∧ c.value = none ∧
        (c.mode = .updateValue ∨ c.mode = .appendValue) := by
  unfold Call.run
  cases findSections towlower d c.sectionName with
  | some sec => exact updateSectionUntil_null
  | none =>
    dsimp only
    split
    · rename_i hmode
      refine ⟨nofun, fun h => ?_⟩
      rcases hmode with hmode | hmode <;> rcases h.2.2 with h | h <;> rw [hmode] at h <;> cases h
    · exact updateSectionUntil_null

/-! ### When a merge of one template is enough -/

/-- The section that an update finds or adds, and the configuration with it. -/
def opened (towlower : WChar → WChar) (d : ConfData) (q : List WChar) : ConfData × Section :=
  match findSections towlower d q with
  | some sec => (d, sec)
  | none =>
    (addMarked d q true Section.markVirtual, (newSection d.nextId q).markVirtual)

section Names

variable (towlower)

/-- The templates that a section still names when the old values of a setting are removed. -/
def Section.left (sec : Section) (name : List WChar) (value : Option (List WChar)) (mode : Mode) :
    List (List WChar) :=
  ((sec.settingsMap.keyIter towlower template).filter fun s =>
    s.user && !decide (s ∈ oldValues towlower sec name value mode)).map Setting.value

/-- The templates that differ when only one is merged: those that come with it, or itself where the
setting is not found under `Template`. -/
def missed (d : ConfData) (name value : List WChar) : List (List WChar) :=
  if sameKey towlower template name then nested towlower d value else [value]

/-- The template gives nothing, and is not the section. -/
abbrev Barren (d : ConfData) (id : Nat) (name : List WChar) : Prop :=
  Idle (Apart towlower d id) (own towlower d) (nested towlower d) name

/-- An update of the setting `Template`, in its section. -/
structure Settled (d : ConfData) (sec : Section) (name : List WChar)
    (value : Option (List WChar)) (mode : Mode) : Prop where
  /-- A value that is set or appended is there. -/
  given : mode = .updateValue ∨ mode = .appendValue → value ≠ none
  /-- No template is left where only the new one is merged, or none. -/
  alone : mode = .updateValue ∨ (mode = .removeValue ∧ value = none) →
    ∀ w ∈ sec.left towlower name value mode, Barren towlower d sec.id w
  /-- The new template comes with no others. -/
  flat : mode = .updateValue ∨ mode = .appendValue → ∀ v ∈ value,
    ∀ w ∈ missed towlower d name v, Barren towlower d sec.id w
  /-- Before an append the section is up to date. -/
  fresh : mode = .appendValue → InSync towlower d sec

/-- The update is a settled one if it is of the setting `Template`. -/
def Meets (d : ConfData) (c : Call) : Prop :=
  ∀ name ∈ c.name, sameNoCase towlower name template = true →
    Settled towlower (opened towlower d c.sectionName).1 (opened towlower d c.sectionName).2 name
      c.value c.mode

/-- The call reads no missing value, and an update of the setting `Template` that returns leaves
the section with what its templates give. -/
def StaysDerived (d : ConfData) (c : Call) : Prop :=
  ∀ fuel, c.run towlower fuel d ≠ .error .nullValue ∧
    ∀ d', c.run towlower fuel d = .ok d' → aboutTemplates towlower c.name c.mode = true →
      ∀ sec, findSections towlower d' c.sectionName = some sec → InSync towlower d' sec

end Names

/-! ### The section after the change of its values -/

variable {d : ConfData} {sec : Section} {k : Nat}

theorem keyIter_nodup (hok : sec.Ok k) (q : List WChar) :
    (sec.settingsMap.keyIter towlower q).Nodup := by
  rw [StrMap.keyIter_eq]
  exact (hok.withHash_nodup _).filter _

theorem keyIter_foldl_remove (q : List WChar) (ss : List Setting) : ∀ {sec : Section}, sec.Ok k →
    (ss.foldl Section.remove sec).settingsMap.keyIter towlower q =
      (sec.settingsMap.keyIter towlower q).filter fun s => !decide (s ∈ ss) := by
  induction ss with
  | nil => exact fun _ => (filter_eq_self.mpr fun _ _ => rfl).symm
  | cons s ss ih =>
    intro sec hok
    rw [foldl_cons, ih (hok.remove s), keyIter_remove,
      (keyIter_nodup hok q).erase_eq_filter, filter_filter]
    refine filter_congr fun t _ => ?_
    simp only [mem_cons, Bool.decide_or, Bool.not_or, bne, Bool.and_comm]
    rfl

theorem templates_withoutOld (hok : sec.Ok k) (name : List WChar) (value : Option (List WChar))
    (hmode : mode ≠ .appendValue) :
    (sec.withoutOld towlower name value mode).templates towlower =
      sec.left towlower name value mode := by
  rw [Section.templates, Section.withoutOld, if_neg hmode, keyIter_foldl_remove _ _ hok,
    filter_filter]
  rfl

theorem templates_add (s : Setting) (hs : s.fromTemplate = false) :
    (sec.add s true).templates towlower =
      sec.templates towlower ++ if sameKey towlower template s.name then [s.value] else [] := by
  rw [Section.templates, keyIter_add, filter_append, map_append]
  refine congrArg _ ?_
  split
  · rw [filter_cons_of_pos (by rw [Setting.user, hs]; rfl)]
    rfl
  · rfl

theorem derived_add (s : Setting) (hs : s.fromTemplate = false) :
    (sec.add s true).derived = sec.derived := by
  have hskip : ¬s.fromTemplate = true := by
    rw [hs]
    decide
  show ((s :: sec.settings).filter _).map _ = _
  rw [filter_cons_of_neg hskip]
  rfl

/-! ### An update in its section -/

theorem changed_put (hd : DataOk towlower d) (hsec : sec ∈ d.sections)
    (name value : Option (List WChar)) (mode : Mode)
    (habout : aboutTemplates towlower name mode = true) :
    ∃ n, DataOk towlower (d.put (sec.changed towlower d.nextId name value mode) n) ∧
      (if mode = .appendValue then changeNamed towlower d sec.id name value mode
        else removeTemplates (changeNamed towlower d sec.id name value mode) sec.id) =
          d.put (sec.changed towlower d.nextId name value mode) n := by
  obtain ⟨n, hnamed⟩ := changeNamed_put hd hsec name value mode
  have hok := (@changeNamed_edits towlower d sec.id name value mode).dataOk hd
  rw [hnamed] at hok ⊢
  have hid := (@changeNamed_same towlower sec d.nextId name value mode).id
  unfold Section.changed
  by_cases happend : mode = .appendValue
  · rw [if_neg fun h => h.2 happend, if_pos happend]
    exact ⟨n, hok, rfl⟩
  · rw [if_pos ⟨habout, happend⟩, if_neg happend]
    have hremove := removeTemplates_put (n := n) hsec hid
    rw [hid] at hremove
    refine ⟨n, ?_, hremove⟩
    rw [← hremove]
    exact (@removeTemplates_edits towlower _ sec.id).dataOk hok

theorem inSync_put (htemplate : hasPrefix towlower tmpl template = false)
    (hsec : sec ∈ d.sections) {x : Section} (hid : x.id = sec.id) {ss : List Setting} {n : Nat}
    {ps qs : List (List WChar × List WChar)}
    (hok : DataOk towlower (d.put (x.addAll ss) n)) (hadds : Adds ss ps)
    (hmerges : Merges towlower d sec.id (x.templates towlower) qs)
    (hperm : qs.Perm (x.derived ++ ps)) :
    InSync towlower (d.put (x.addAll ss) n) (x.addAll ss) := by
  have hid' : (x.addAll ss).id = sec.id := (addAll_same ss x).id.trans hid
  refine (inSync_iff htemplate hok ((mem_put hsec hid').mpr (Or.inr rfl))).mpr ⟨qs, ?_, ?_⟩
  · rw [merges_put, hid', templates_addAll hadds]
    exact hmerges
  · rw [derived_addAll hadds]
    exact hperm

theorem mergeAll_inSync (htemplate : hasPrefix towlower tmpl template = false)
    (hsec : sec ∈ d.sections) {y : Section} (hid : y.id = sec.id) (hy : y.Ok k) {fuel n : Nat}
    {d' : ConfData} (hput : DataOk towlower (d.put y.withoutTemplates n))
    (hd' : DataOk towlower d')
    (h : mergeTemplates towlower fuel (d.put y.withoutTemplates n) sec.id sec.id = some d') :
    ∃ x m, x.Same y ∧ d' = d.put x m ∧ InSync towlower d' x := by
  have hsame := withoutTemplates_same y
  have hid' : y.withoutTemplates.id = sec.id := hsame.id.trans hid
  have hmem : y.withoutTemplates ∈ (d.put y.withoutTemplates n).sections :=
    (mem_put hsec hid').mpr (Or.inr rfl)
  have hbase : d.put y.withoutTemplates n =
      (d.put y.withoutTemplates n).put (y.withoutTemplates.addAll []) n :=
    (put_self hput hmem).symm
  rw [hbase, mergeTemplates, ← hid'] at h
  obtain ⟨ss, m, ps, hadds, hmerges, rfl⟩ := mergeLoop_merges htemplate hput hmem fuel h
  have hput' := put_put (d := d) (n := n) (m := m) (addAll_same ss y.withoutTemplates).id
  rw [nil_append, hput'] at hd' ⊢
  refine ⟨_, m, (addAll_same ss _).trans hsame, rfl, ?_⟩
  have hps : Merges towlower d sec.id (y.withoutTemplates.templates towlower) ps := by
    rw [templates_withoutTemplates hy, ← ahead_withoutTemplates hy]
    rw [merges_put, hid'] at hmerges
    exact hmerges
  refine inSync_put htemplate hsec hid' hd' hadds hps ?_
  rw [derived_withoutTemplates hy]
  exact List.Perm.refl _

theorem mergeOne_inSync (htemplate : hasPrefix towlower tmpl template = false)
    (hsec : sec ∈ d.sections) {y : Section} (hsame : y.Same sec)
    {fuel n : Nat} {v : List WChar} {s : Setting} (hs : s ∈ y.settings)
    (hname : sameNoCase towlower s.name template = true) {d' : ConfData}
    (hput : DataOk towlower (d.put y n)) (hd' : DataOk towlower d')
    (h : mergeTemplate towlower fuel (d.put y n) v sec.id = some d')
    (hmerges : Apart towlower d sec.id v →
      ∃ qs, Merges towlower d sec.id (y.templates towlower) qs ∧
        qs.Perm (y.derived ++ own towlower d v)) :
    ∃ x m, x.Same sec ∧ d' = d.put x m ∧ InSync towlower d' x := by
  by_cases hapart : Apart towlower d sec.id v
  · have hmem : y ∈ (d.put y n).sections := (mem_put hsec hsame.id).mpr (Or.inr rfl)
    have hbase : d.put y n = (d.put y n).put (y.addAll []) n := (put_self hput hmem).symm
    rw [← hsame.id] at hapart
    obtain ⟨hapart', hown⟩ := @apart_put towlower d y n v hapart
    obtain ⟨ss, m, b, hadds, hrun⟩ := mergeTemplate_eq hput hapart' [] n
    rw [hbase, ← hsame.id, hrun] at h
    split at h
    · have hput' := put_put (d := d) (n := n) (m := m) (addAll_same ss y).id
      rw [nil_append, hput'] at h
      cases h
      rw [hsame.id] at hapart
      rw [hown] at hadds
      obtain ⟨qs, hqs, hperm⟩ := hmerges hapart
      exact ⟨_, m, (addAll_same ss y).trans hsame, rfl,
        inSync_put htemplate hsec hsame.id hd' hadds hqs hperm⟩
    · cases h
  · rw [mergeTemplate_self hsec hapart hsame.id hs (copied_of_template htemplate hname)] at h
    cases h

/-! ### What an update makes of its section -/

theorem changed_append (sec : Section) (k : Nat) (name v : List WChar) :
    sec.changed towlower k (some name) (some v) .appendValue =
      sec.add ⟨k, name, v, false⟩ true := by
  unfold Section.changed
  rw [if_neg fun h => h.2 rfl]
  rfl

theorem about_of_same {name : List WChar} (hname : sameNoCase towlower name template = true)
    (mode : Mode) : aboutTemplates towlower (some name) mode = true := by
  rw [aboutTemplates, Option.any_some, hname, Bool.or_true]

theorem changed_update {name : List WChar} (hname : sameNoCase towlower name template = true)
    (sec : Section) (k : Nat) (v : List WChar) :
    sec.changed towlower k (some name) (some v) .updateValue =
      ((sec.withoutOld towlower name (some v) .updateValue).add
        ⟨k, name, v, false⟩ true).withoutTemplates := by
  refine (if_pos ⟨about_of_same hname _, by decide⟩).trans ?_
  rfl

theorem changed_remove {name : List WChar} (hname : sameNoCase towlower name template = true)
    (sec : Section) (k : Nat) (value : Option (List WChar)) :
    sec.changed towlower k (some name) value .removeValue =
      (sec.withoutOld towlower name value .removeValue).withoutTemplates := by
  refine (if_pos ⟨about_of_same hname _, by decide⟩).trans ?_
  cases value <;> rfl

theorem changed_merge (sec : Section) (k : Nat) (name value : Option (List WChar)) :
    sec.changed towlower k name value .updateTemplates = sec.withoutTemplates := by
  refine (if_pos ⟨rfl, by decide⟩).trans ?_
  cases name <;> rfl

theorem merges_concat {name v : List WChar} {ws : List (List WChar)}
    {ps : List (List WChar × List WChar)} {id : Nat} (hv : Apart towlower d id v)
    (hmissed : ∀ w ∈ missed towlower d name v, Barren towlower d id w)
    (h : Merges towlower d id ws ps) :
    ∃ qs, Merges towlower d id (ws ++ if sameKey towlower template name then [v] else []) qs ∧
      qs.Perm (ps ++ own towlower d v) := by
  unfold missed at hmissed
  by_cases hkey : sameKey towlower template name = true
  · rw [if_pos hkey] at hmissed ⊢
    have hone : Merges towlower d id [v] (own towlower d v ++ []) := .cons hv (visits_idle hmissed)
    rw [append_nil] at hone
    exact h.append hone
  · rw [if_neg hkey] at hmissed ⊢
    obtain ⟨-, hgive, -⟩ := hmissed v (.head _)
    rw [hgive, append_nil, append_nil]
    exact ⟨ps, h, List.Perm.refl _⟩

/-- **An update of a section** that is settled leaves it with what its templates give. -/
theorem updateSection_inSync (htemplate : hasPrefix towlower tmpl template = false)
    (hd : DataOk towlower d) (hsec : sec ∈ d.sections)
    {d' : ConfData}
    (hmode : mode ≠ .removeSection) (habout : aboutTemplates towlower name mode = true)
    (hsettled : ∀ nm ∈ name, sameNoCase towlower nm template = true →
      Settled towlower d sec nm value mode)
    (h : updateSection towlower fuel d sec name value mode = some d') :
    ∃ x m, x.Same sec ∧ d' = d.put x m ∧ InSync towlower d' x := by
  have hd' : DataOk towlower d' := (updateSection_edits hsec h).dataOk hd
  have hok := hd.settings sec hsec
  obtain ⟨n, hput, hchange⟩ := changed_put hd hsec name value mode habout
  have hnamed : mode ≠ .updateTemplates →
      ∃ nm, name = some nm ∧ sameNoCase towlower nm template = true := by
    intro hne
    rw [aboutTemplates, decide_eq_false hne, Bool.false_or, Option.any_eq_true] at habout
    exact habout
  unfold updateSection at h
  rw [habout, if_pos rfl] at h
  unfold changeTemplates at h
  rw [hchange] at h
  cases mode with
  | removeSection => exact absurd rfl hmode
  | updateTemplates =>
    rw [changed_merge] at h hput
    exact mergeAll_inSync htemplate hsec rfl hok hput hd' h
  | removeValue =>
    obtain ⟨nm, rfl, hnm⟩ := hnamed (by decide)
    rw [changed_remove hnm] at h hput
    have hold := @withoutOld_same towlower sec nm value .removeValue
    have holdok := @withoutOld_ok towlower sec _ hok nm value .removeValue
    cases value with
    | some v =>
      obtain ⟨x, m, hx, hrest⟩ := mergeAll_inSync htemplate hsec hold.id holdok hput hd' h
      exact ⟨x, m, hx.trans hold, hrest⟩
    | none =>
      -- nothing is merged, and no template is left
      have hidle := (hsettled nm rfl hnm).alone (.inr ⟨rfl, rfl⟩)
      have hsame := (withoutTemplates_same _).trans hold
      have hmerges := visits_idle hidle
      rw [← templates_withoutOld hok nm none (by decide), ← templates_withoutTemplates holdok]
        at hmerges
      cases h
      refine ⟨_, n, hsame, rfl, @inSync_put towlower d sec htemplate hsec _ hsame.id [] n _ _ hput
        adds_nil hmerges ?_⟩
      rw [derived_withoutTemplates holdok]
      exact List.Perm.refl _
  | updateValue =>
    obtain ⟨nm, rfl, hnm⟩ := hnamed (by decide)
    have hc := hsettled nm rfl hnm
    cases value with
    | none => exact absurd rfl (hc.given (.inl rfl))
    | some v =>
      rw [changed_update hnm] at h hput
      have hold := @withoutOld_same towlower sec nm (some v) .updateValue
      have hadded := (@withoutOld_ok towlower sec _ hok nm (some v) .updateValue).add
        (s := ⟨d.nextId, nm, v, false⟩) rfl true
      have hsame :=
        ((withoutTemplates_same _).trans (add_same _ ⟨d.nextId, nm, v, false⟩ true)).trans hold
      have hs := (mem_withoutTemplates hadded).mpr ⟨mem_add.mpr (.inr rfl), rfl⟩
      refine mergeOne_inSync htemplate hsec hsame hs hnm hput hd' h fun hapart => ?_
      obtain ⟨qs, hqs, hperm⟩ := merges_concat hapart (hc.flat (.inl rfl) v rfl)
        (visits_idle (hc.alone (.inl rfl)))
      rw [templates_withoutTemplates hadded, templates_add _ rfl,
        templates_withoutOld hok _ _ (by decide), derived_withoutTemplates hadded]
      exact ⟨qs, hqs, hperm⟩
  | appendValue =>
    obtain ⟨nm, rfl, hnm⟩ := hnamed (by decide)
    have hc := hsettled nm rfl hnm
    cases value with
    | none => exact absurd rfl (hc.given (.inr rfl))
    | some v =>
      rw [changed_append] at h hput
      refine mergeOne_inSync htemplate hsec (add_same sec _ true) (mem_add.mpr (.inr rfl)) hnm hput
        hd' h fun hapart => ?_
      obtain ⟨ps, hps, hperm⟩ := (inSync_iff htemplate hd hsec).mp (hc.fresh rfl)
      obtain ⟨qs, hqs, hperm'⟩ := merges_concat hapart (hc.flat (.inr rfl) v rfl) hps
      rw [templates_add _ rfl, derived_add _ rfl]
      exact ⟨qs, hqs, hperm'.trans (hperm.append_right _)⟩

/-! ### Runs -/

theorem opened_spec (hd : DataOk towlower d) (q : List WChar) :
    DataOk towlower (opened towlower d q).1 ∧
      findSections towlower (opened towlower d q).1 q = some (opened towlower d q).2 := by
  unfold opened
  cases hfind : findSections towlower d q with
  | some sec => exact ⟨hd, hfind⟩
  | none =>
    exact ⟨(addMarked_edits true marks_virtual hfind).dataOk hd,
      findSections_addMarked hd true marks_virtual hfind⟩

theorem findSections_dropSection (hd : DataOk towlower d) {q : List WChar}
    (hfind : findSections towlower d q = some sec) :
    findSections towlower (dropSection towlower d sec) q = none := by
  have hsec := findSections_mem hfind
  refine (hd.dropSection hsec).findSections_eq_none.mpr fun x hx hkey => ?_
  obtain ⟨hx, hne⟩ := (hd.mem_dropSection hsec).mp hx
  refine hne (hd.keys x hx sec hsec ?_)
  exact sameKey_trans hkey (hd.sameKey_of_findSections hfind)

theorem staysDerived_of_meets (htemplate : hasPrefix towlower tmpl template = false)
    (hd : DataOk towlower d) {c : Call} (hmeets : Meets towlower d c) :
    StaysDerived towlower d c := by
  intro fuel
  constructor
  · intro hnull
    obtain ⟨habout, hvalue, hmode⟩ := Call.run_null.mp hnull
    have hne : c.mode ≠ .updateTemplates := by rcases hmode with h | h <;> rw [h] <;> decide
    rw [aboutTemplates, decide_eq_false hne, Bool.false_or, Option.any_eq_true] at habout
    obtain ⟨name, hname, hsame⟩ := habout
    exact (hmeets name hname hsame).given hmode hvalue
  · intro d' hrun habout sec' hfind'
    have hupdate := Call.run_ok.mp hrun
    obtain ⟨hopened, hfind⟩ := opened_spec hd c.sectionName
    by_cases hnothing : findSections towlower d c.sectionName = none ∧
        (c.mode = .removeValue ∨ c.mode = .removeSection)
    · -- no section, and nothing to do
      unfold confUpdate at hupdate
      rw [hnothing.1] at hupdate
      rw [if_pos hnothing.2] at hupdate
      cases hupdate
      rw [hnothing.1] at hfind'
      cases hfind'
    · have hsame : confUpdate towlower fuel d c.sectionName c.name c.value c.mode =
          updateSection towlower fuel (opened towlower d c.sectionName).1
            (opened towlower d c.sectionName).2 c.name c.value c.mode := by
        unfold confUpdate opened
        cases hq : findSections towlower d c.sectionName with
        | some sec => rfl
        | none => exact if_neg fun hmode => hnothing ⟨hq, hmode⟩
      rw [hsame] at hupdate
      by_cases hdrop : c.mode = .removeSection
      · unfold updateSection at hupdate
        rw [if_pos hdrop] at hupdate
        rw [← Option.some.inj hupdate, findSections_dropSection hopened hfind] at hfind'
        cases hfind'
      · have hsec := findSections_mem hfind
        have hd' := (updateSection_edits hsec hupdate).dataOk hopened
        obtain ⟨x, m, hx, rfl, hsync⟩ := updateSection_inSync htemplate hopened hsec hdrop habout
          hmeets hupdate
        rw [findSections_put hopened hd' hfind hx.id hx.name] at hfind'
        rw [← Option.some.inj hfind']
        exact hsync

section Names

variable (towlower)

/-- What `Conf_Read` and then calls of `Conf_Update` that meet a condition lead to. -/
inductive UpdateRun (meets : ConfData → Call → Prop) : ConfData → Prop
  | read {fuel : Nat} {files : Files} {old d : ConfData} (hold : Reachable towlower old)
      (h : confRead towlower fuel files old = some (.read d)) : UpdateRun meets d
  | update {fuel : Nat} {d d' : ConfData} {c : Call} (h : UpdateRun meets d) (hc : meets d c)
      (hrun : c.run towlower fuel d = .ok d') : UpdateRun meets d'

end Names

theorem UpdateRun.reachable {meets : ConfData → Call → Prop} (h : UpdateRun towlower meets d) :
    Reachable towlower d := by
  induction h with
  | read hold h => exact .read hold h
  | update _ _ hrun ih => exact .update ih (Call.run_ok.mp hrun)

/-- **Template settings stay derived** in every run whose calls are settled: each call of the run
reads no missing value and leaves its section with what its templates give. -/
theorem templates_stay_derived (htemplate : hasPrefix towlower tmpl template = false)
    (h : UpdateRun towlower (Meets towlower) d) {c : Call} (hc : Meets towlower d c) :
    StaysDerived towlower d c :=
  staysDerived_of_meets htemplate h.reachable.dataOk hc

/-! ### Two calls -/

theorem emptyData_read (meets : ConfData → Call → Prop) :
    UpdateRun asciiLower meets (emptyData 1 none) :=
  @UpdateRun.read asciiLower meets 0 ⟨1, none, [], [], fun _ => []⟩ _ _ (.init 1 none) rfl

/-- `Template=Foo` is set in a new section. -/
def setTemplate (value : Option (List WChar)) : Call :=
  ⟨wide ['B', 'o', 'x'], some template, value, .updateValue⟩

theorem templates_stay_derived_foo : StaysDerived asciiLower (emptyData 1 none)
    (setTemplate (some (wide ['F', 'o', 'o']))) := by
  refine templates_stay_derived (by decide) (emptyData_read _) ?_
  rintro name ⟨⟩ -
  have hleft : (opened asciiLower (emptyData 1 none) (wide ['B', 'o', 'x'])).2.left asciiLower
    template
      (some (wide ['F', 'o', 'o'])) .updateValue = [] := by decide
  have hmissed : missed asciiLower (opened asciiLower (emptyData 1 none) (wide ['B', 'o', 'x'])).1
      template (wide ['F', 'o', 'o']) = [] := by decide
  refine ⟨nofun, fun _ w hw => ?_, fun _ v hv w hw => ?_, nofun⟩
  · rw [setTemplate, hleft] at hw
    cases hw
  · cases hv
    cases hw

/-- Without a value the update reads a NULL pointer. -/
theorem null_value_read :
    (setTemplate none).run asciiLower 1 (emptyData 1 none) = .error .nullValue ∧
      ¬∀ d, UpdateRun asciiLower (fun _ _ => True) d → ∀ c, StaysDerived asciiLower d c := by
  have hnull : (setTemplate none).run asciiLower 1 (emptyData 1 none) = .error .nullValue :=
    Call.run_null.mpr ⟨by decide, rfl, .inl rfl⟩
  exact ⟨hnull, fun h => (h _ (emptyData_read _) (setTemplate none) 1).1 hnull⟩

end Sandboxie.Conf
