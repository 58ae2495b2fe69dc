import Sandboxie.Drv.ConfEdits

/-!
# What an update does to its section

An update that does not drop its section replaces it (`ConfData.put`).  The new section is a
function of the old one, `Section.changed`, but for the settings that come from templates
(`updateSection_put`).
-/

namespace Sandboxie.Conf

open Text Relation List

variable {towlower : WChar → WChar}

/-! ### Replacing a section -/

/-- The section at an address is replaced, and addresses are given out from `n` on. -/
def ConfData.put (d : ConfData) (sec : Section) (n : Nat) : ConfData :=
  { d.modify sec.id fun _ => sec with nextId := n }

@[simp] theorem put_nextId (d : ConfData) (sec : Section) (n : Nat) : (d.put sec n).nextId = n :=
  rfl

variable {d : ConfData} {sec old : Section} {n : Nat}

theorem mem_put {x : Section} (hold : old ∈ d.sections) (hid : sec.id = old.id) :
    x ∈ (d.put sec n).sections ↔ (x ∈ d.sections ∧ x.id ≠ sec.id) ∨ x = sec := by
  refine mem_modify.trans ⟨fun h => ?_, fun h => ?_⟩
  · obtain ⟨y, hy, rfl⟩ := h
    by_cases hyid : y.id = sec.id
    · rw [if_pos hyid]
      exact Or.inr rfl
    · rw [if_neg hyid]
      exact Or.inl ⟨hy, hyid⟩
  · rcases h with ⟨hx, hne⟩ | rfl
    · exact ⟨x, hx, (if_neg hne).symm⟩
    · exact ⟨old, hold, (if_pos hid.symm).symm⟩

variable {d : ConfData} {sec : Section} {n : Nat}

theorem forall_put {P : Section → Prop}
    (hd : ∀ x ∈ d.sections, x.id ≠ sec.id → P x) (hsec : P sec) :
    ∀ x ∈ (d.put sec n).sections, P x := by
  intro x hx
  obtain ⟨y, hy, rfl⟩ := mem_modify.mp hx
  by_cases hid : y.id = sec.id
  · rw [if_pos hid]
    exact hsec
  · rw [if_neg hid]
    exact hd y hy hid

theorem put_self (hd : DataOk towlower d) (hsec : sec ∈ d.sections) : d.put sec d.nextId = d := by
  have hmap : (d.sections.map fun y => if y.id = sec.id then sec else y) = d.sections := by
    refine (map_congr_left fun y hy => ?_).trans (map_id _)
    by_cases hid : y.id = sec.id
    · rw [if_pos hid, inj_on_of_nodup_map hd.nodup hy hsec hid]
      rfl
    · rw [if_neg hid]
      rfl
  unfold ConfData.put ConfData.modify
  rw [hmap]

theorem put_modify (d : ConfData) (sec : Section) (n : Nat) (f : Section → Section)
    (hf : (f sec).id = sec.id) (n' : Nat) :
    { (d.put sec n).modify sec.id f with nextId := n' } = d.put (f sec) n' := by
  have hmap : ((d.sections.map fun y => if y.id = sec.id then sec else y).map fun y =>
      if y.id = sec.id then f y else y) =
      d.sections.map fun y => if y.id = sec.id then f sec else y := by
    rw [List.map_map]
    refine List.map_congr_left fun y _ => ?_
    show (if (if y.id = sec.id then sec else y).id = sec.id
      then f (if y.id = sec.id then sec else y) else if y.id = sec.id then sec else y) = _
    by_cases hy : y.id = sec.id
    · rw [if_pos hy, if_pos rfl, if_pos hy]
    · rw [if_neg hy, if_neg hy, if_neg hy]
  unfold ConfData.put ConfData.modify
  rw [hmap, hf]

theorem section?_put (hold : old ∈ d.sections)
    (hid : sec.id = old.id) : (d.put sec n).section? sec.id = some sec := by
  refine find?_eq_some_of_only (mem_modify.mpr ⟨old, hold, (if_pos hid.symm).symm⟩)
    (beq_self_eq_true _) fun b hb hbid => ?_
  obtain ⟨y, _, rfl⟩ := mem_modify.mp hb
  by_cases hy : y.id = sec.id
  · exact if_pos hy
  · rw [if_neg hy] at hbid
    exact absurd (beq_iff_eq.mp hbid) hy

theorem addSetting_put (d : ConfData) (sec : Section) (n : Nat) (name value : List WChar)
    (insert fromTemplate : Bool) :
    addSetting (d.put sec n) sec.id name value insert fromTemplate =
      d.put (sec.add ⟨n, name, value, fromTemplate⟩ insert) (n + 1) :=
  put_modify d sec n (fun sec => sec.add ⟨n, name, value, fromTemplate⟩ insert) rfl (n + 1)

theorem removeSettings_put (d : ConfData) (sec : Section) (n : Nat) (ss : List Setting) :
    removeSettings (d.put sec n) sec.id ss = d.put (ss.foldl Section.remove sec) n :=
  put_modify d sec n (fun sec => ss.foldl Section.remove sec) (foldl_remove_same ss sec).id n

/-! ### The new section -/

def Section.addAll (sec : Section) (ss : List Setting) : Section :=
  ss.foldl (fun sec s => sec.add s false) sec

theorem addAll_same (ss : List Setting) : ∀ sec : Section, (sec.addAll ss).Same sec := by
  induction ss with
  | nil => exact Section.Same.refl
  | cons s ss ih => exact fun sec => (ih (sec.add s false)).trans (add_same sec s false)

theorem Section.addAll_append (sec : Section) (ss : List Setting) (s : Setting) :
    sec.addAll (ss ++ [s]) = (sec.addAll ss).add s false := by
  rw [Section.addAll, foldl_append]
  rfl

theorem Merged.put {d' : ConfData} (h : Merged sec.id (d.put sec n) d') :
    ∃ ss n', (∀ s ∈ ss, s.fromTemplate = true) ∧ d' = d.put (sec.addAll ss) n' := by
  induction h with
  | refl => exact ⟨[], n, fun _ hs => (by cases hs), rfl⟩
  | tail _ hstep ih =>
    obtain ⟨ss, n', hss, rfl⟩ := ih
    obtain ⟨name, value, rfl⟩ := hstep
    refine ⟨ss ++ [⟨n', name, value, true⟩], n' + 1, fun s hs => ?_, ?_⟩
    · rcases mem_append.mp hs with hs | hs
      · exact hss s hs
      · rw [mem_singleton.mp hs]
    · rw [Section.addAll_append, ← addSetting_put, (addAll_same ss sec).id]

theorem mem_foldl_remove (ss : List Setting) : ∀ {sec : Section} {n : Nat} {t : Setting}, sec.Ok n →
    (t ∈ (ss.foldl Section.remove sec).settings ↔ t ∈ sec.settings ∧ t ∉ ss) := by
  induction ss with
  | nil => exact fun _ => ⟨fun h => ⟨h, not_mem_nil⟩, fun h => h.1⟩
  | cons s ss ih =>
    intro sec n t hok
    have hmem : t ∈ (sec.remove s).settings ↔ t ≠ s ∧ t ∈ sec.settings :=
      hok.settings_nodup.mem_erase_iff
    rw [foldl_cons, ih (hok.remove s), hmem, mem_cons, not_or]
    exact ⟨fun h => ⟨h.1.2, h.1.1, h.2⟩, fun h => ⟨⟨h.2.1, h.1⟩, h.2.2⟩⟩

def Section.withoutTemplates (sec : Section) : Section :=
  (sec.settingsMap.nodes.filter fun s => s.fromTemplate).foldl Section.remove sec

theorem mem_withoutTemplates (hok : sec.Ok n) {t : Setting} :
    t ∈ sec.withoutTemplates.settings ↔ t ∈ sec.settings ∧ t.fromTemplate = false := by
  rw [Section.withoutTemplates, mem_foldl_remove _ hok, mem_filter, hok.mem]
  refine and_congr_right fun ht => ?_
  rw [not_and, Bool.not_eq_true]
  exact ⟨fun h => h ht, fun h _ => h⟩

section Names

variable (towlower)

def Section.withoutOld (sec : Section) (name : List WChar) (value : Option (List WChar))
    (mode : Mode) : Section :=
  if mode = .appendValue then sec
  else (oldValues towlower sec name value mode).foldl Section.remove sec

/-- A section with the values of a name changed; a new setting is at the address `n`. -/
def Section.changeValues (sec : Section) (n : Nat) (name : List WChar)
    (value : Option (List WChar)) (mode : Mode) : Section :=
  match value with
  | some v =>
    if mode = .removeValue then sec.withoutOld towlower name value mode
    else (sec.withoutOld towlower name value mode).add ⟨n, name, v, false⟩ true
  | none => sec.withoutOld towlower name value mode

def Section.changeNamed (sec : Section) (n : Nat) (name value : Option (List WChar))
    (mode : Mode) : Section :=
  match name with
  | some nm =>
    if mode = .updateTemplates then sec else sec.changeValues towlower n nm value mode
  | none => sec

def Section.changed (sec : Section) (n : Nat) (name value : Option (List WChar)) (mode : Mode) :
    Section :=
  if aboutTemplates towlower name mode = true ∧ mode ≠ .appendValue then
    (sec.changeNamed towlower n name value mode).withoutTemplates
  else sec.changeNamed towlower n name value mode

end Names

theorem withoutOld_same (sec : Section) (name : List WChar) (value : Option (List WChar))
    (mode : Mode) : (sec.withoutOld towlower name value mode).Same sec := by
  unfold Section.withoutOld
  split
  · exact Section.Same.refl sec
  · exact foldl_remove_same _ sec

theorem changeNamed_same (sec : Section) (n : Nat) (name value : Option (List WChar))
    (mode : Mode) : (sec.changeNamed towlower n name value mode).Same sec := by
  unfold Section.changeNamed
  split
  · split
    · exact Section.Same.refl sec
    · unfold Section.changeValues
      split
      · split
        · exact withoutOld_same sec _ _ _
        · exact (add_same _ _ true).trans (withoutOld_same sec _ _ _)
      · exact withoutOld_same sec _ _ _
  · exact Section.Same.refl sec

theorem withoutTemplates_same (sec : Section) : sec.withoutTemplates.Same sec :=
  foldl_remove_same _ sec

theorem changed_same (sec : Section) (n : Nat) (name value : Option (List WChar)) (mode : Mode) :
    (sec.changed towlower n name value mode).Same sec := by
  unfold Section.changed
  split
  · exact (withoutTemplates_same _).trans (changeNamed_same sec n name value mode)
  · exact changeNamed_same sec n name value mode

theorem changeValues_put (hd : DataOk towlower d)
    (hsec : sec ∈ d.sections) (name : List WChar) (value : Option (List WChar)) (mode : Mode) :
    ∃ n, changeValues towlower d sec.id name value mode =
      d.put (sec.changeValues towlower d.nextId name value mode) n := by
  have hold : removeOld towlower d sec.id name value mode =
      d.put (sec.withoutOld towlower name value mode) d.nextId := by
    unfold removeOld Section.withoutOld
    by_cases happend : mode = .appendValue
    · rw [if_pos happend, if_pos happend]
      exact (put_self hd hsec).symm
    · rw [if_neg happend, if_neg happend, hd.section?_eq hsec]
      rw [← removeSettings_put, put_self hd hsec]
  unfold changeValues Section.changeValues
  rw [hold]
  cases value with
  | none => exact ⟨_, rfl⟩
  | some v =>
    dsimp only
    by_cases hmode : mode = .removeValue
    · rw [if_pos hmode, if_pos hmode]
      exact ⟨_, rfl⟩
    · rw [if_neg hmode, if_neg hmode]
      have hadd := addSetting_put d (sec.withoutOld towlower name (some v) mode) d.nextId name v
        true false
      rw [(withoutOld_same sec name (some v) mode).id] at hadd
      exact ⟨_, hadd⟩

theorem changeNamed_put (hd : DataOk towlower d)
    (hsec : sec ∈ d.sections) (name value : Option (List WChar)) (mode : Mode) :
    ∃ n, changeNamed towlower d sec.id name value mode =
      d.put (sec.changeNamed towlower d.nextId name value mode) n := by
  unfold changeNamed Section.changeNamed
  cases name with
  | none => exact ⟨_, (put_self hd hsec).symm⟩
  | some nm =>
    dsimp only
    by_cases hmode : mode = .updateTemplates
    · rw [if_pos hmode, if_pos hmode]
      exact ⟨_, (put_self hd hsec).symm⟩
    · rw [if_neg hmode, if_neg hmode]
      exact changeValues_put hd hsec nm value mode

theorem removeTemplates_put (hold : old ∈ d.sections)
    (hid : sec.id = old.id) :
    removeTemplates (d.put sec n) sec.id = d.put sec.withoutTemplates n := by
  unfold removeTemplates
  rw [section?_put hold hid]
  exact removeSettings_put d sec n _

variable {name value : Option (List WChar)} {fuel : Nat} {mode : Mode}

/-- **An update of a section** replaces it by `Section.changed` with some settings from
templates at its end. -/
theorem updateSection_put {d' : ConfData} (hd : DataOk towlower d)
    (hsec : sec ∈ d.sections) (hmode : mode ≠ .removeSection)
    (h : updateSection towlower fuel d sec name value mode = some d') :
    ∃ ss n, (∀ s ∈ ss, s.fromTemplate = true) ∧
      d' = d.put ((sec.changed towlower d.nextId name value mode).addAll ss) n := by
  obtain ⟨n, hnamed⟩ := changeNamed_put hd hsec name value mode
  have hid := (@changeNamed_same towlower sec d.nextId name value mode).id
  unfold Section.changed
  rcases updateSection_cases h with ⟨hdrop, _⟩ | ⟨_, habout, rfl⟩ | ⟨_, habout, hmerged⟩
  · exact absurd hdrop hmode
  · rw [if_neg fun hc => by rw [habout] at hc; cases hc.1]
    exact ⟨[], n, fun _ hs => (by cases hs), hnamed⟩
  rw [hnamed] at hmerged
  by_cases happend : mode = .appendValue
  · rw [if_neg fun hc => hc.2 happend]
    rw [if_pos happend, ← hid] at hmerged
    exact Merged.put hmerged
  · rw [if_pos ⟨habout, happend⟩]
    have hremoved := removeTemplates_put (n := n) hsec hid
    rw [if_neg happend, ← hid, hremoved, ← (withoutTemplates_same _).id] at hmerged
    exact Merged.put hmerged

theorem put_put {a b : Section} {m : Nat} (h : b.id = a.id) :
    (d.put a n).put b m = d.put b m := by
  have hput := put_modify d a n (fun _ => b) h m
  rw [← h] at hput
  exact hput

variable {q : List WChar}

theorem DataOk.findSections_of_sameKey (h : DataOk towlower d)
    (hsec : sec ∈ d.sections) (hkey : sameKey towlower q sec.name = true) :
    findSections towlower d q = some sec := by
  rw [h.findSections_eq]
  exact find?_eq_some_of_only hsec hkey fun b hb hkey' => h.keys b hb sec hsec
    (sameKey_trans hkey' hkey)

theorem findSections_put (hd : DataOk towlower d) (hput : DataOk towlower (d.put sec n))
    (hold : findSections towlower d q = some old) (hid : sec.id = old.id)
    (hname : sec.name = old.name) : findSections towlower (d.put sec n) q = some sec := by
  refine hput.findSections_of_sameKey
    ((mem_put (findSections_mem hold) hid).mpr (Or.inr rfl)) ?_
  rw [hname]
  exact hd.sameKey_of_findSections hold

theorem confUpdate_put {d' : ConfData} (hd : DataOk towlower d)
    (hfind : findSections towlower d q = some sec) (hmode : mode ≠ .removeSection)
    (h : confUpdate towlower fuel d q name value mode = some d') :
    ∃ ss n, (∀ s ∈ ss, s.fromTemplate = true) ∧
      d' = d.put ((sec.changed towlower d.nextId name value mode).addAll ss) n := by
  unfold confUpdate at h
  rw [hfind] at h
  exact updateSection_put hd (findSections_mem hfind) hmode h

theorem findSections_addMarked (hd : DataOk towlower d)
    {mark : Section → Section} (insert : Bool) (hmark : Marks mark)
    (hfind : findSections towlower d q = none) :
    findSections towlower (addMarked d q insert mark) q = some (mark (newSection d.nextId q)) := by
  refine ((addMarked_edits insert hmark hfind).dataOk hd).findSections_of_sameKey
    (mem_addMarked d q insert mark) ?_
  rw [(hmark _).2.1]
  exact sameKey_refl q

theorem confUpdate_addMarked (hd : DataOk towlower d)
    (hfind : findSections towlower d q = none) (hremove : mode ≠ .removeValue)
    (hdrop : mode ≠ .removeSection) :
    confUpdate towlower fuel d q name value mode =
      confUpdate towlower fuel (addMarked d q true Section.markVirtual) q name value mode := by
  have hadded := findSections_addMarked hd true marks_virtual hfind
  rw [confUpdate, confUpdate, hfind, hadded]
  rw [if_neg (not_or.mpr ⟨hremove, hdrop⟩)]

/-! ### Copying a virtual section -/

/-- A value is put in front of a section for each setting, with settings from templates behind
some of them. -/
inductive Copied : Section → List Setting → Section → Prop
  | refl (sec : Section) : Copied sec [] sec
  | cons {sec sec' : Section} {s : Setting} {rest : List Setting} (n : Nat) (tmpls : List Setting)
      (htmpls : ∀ t ∈ tmpls, t.fromTemplate = true)
      (h : Copied ((sec.add ⟨n, s.name, s.value, false⟩ true).addAll tmpls) rest sec') :
      Copied sec (s :: rest) sec'

theorem Copied.same {sec' : Section} {ss : List Setting} (h : Copied sec ss sec') :
    sec'.Same sec := by
  induction h with
  | refl sec => exact Section.Same.refl sec
  | cons n tmpls _ _ ih => exact ih.trans ((addAll_same tmpls _).trans (add_same _ _ true))

theorem importSettings_put : ∀ (ss : List Setting)
    {d d' : ConfData} {sec : Section}, DataOk towlower d → findSections towlower d q = some sec →
    importSettings towlower fuel q ss d = some d' →
    ∃ sec' n, Copied sec (ss.filter fun s => !s.fromTemplate) sec' ∧ d' = d.put sec' n := by
  intro ss
  induction ss with
  | nil =>
    intro d d' sec hd hfind h
    rw [← Option.some.inj h]
    exact ⟨sec, d.nextId, .refl sec, (put_self hd (findSections_mem hfind)).symm⟩
  | cons s rest ih =>
    intro d d' sec hd hfind h
    rw [importSettings] at h
    by_cases htmpl : s.fromTemplate = true
    · rw [if_pos htmpl] at h
      rw [filter_cons_of_neg (by rw [htmpl]; decide)]
      exact ih hd hfind h
    rw [if_neg htmpl] at h
    split at h
    · cases h
    rename_i d1 hupdate
    have hd1 := (confUpdate_edits hupdate).dataOk hd
    obtain ⟨tmpls, n, htmpls, rfl⟩ := confUpdate_put hd hfind (by decide) hupdate
    have hchanged : sec.changed towlower d.nextId (some s.name) (some s.value) .appendValue =
        sec.add ⟨d.nextId, s.name, s.value, false⟩ true := by
      unfold Section.changed
      rw [if_neg fun hc => hc.2 rfl]
      rfl
    rw [hchanged] at hd1 hupdate h
    have hid : ((sec.add ⟨d.nextId, s.name, s.value, false⟩ true).addAll tmpls).id = sec.id :=
      (addAll_same _ _).id
    have hfind1 := findSections_put hd hd1 hfind hid (addAll_same _ _).name
    obtain ⟨sec', n', hcopied, rfl⟩ := ih hd1 hfind1 h
    rw [filter_cons_of_pos (by rw [Bool.not_eq_true _ |>.mp htmpl]; rfl)]
    refine ⟨sec', n', .cons d.nextId tmpls htmpls hcopied, ?_⟩
    exact put_put hcopied.same.id

/-- **Copying a virtual section** to a configuration that does not have it: a new virtual
section with the values that are not from templates, the last one first, and with settings from
templates at the end. -/
theorem importOne_put {ss : List Setting} {d d1 d2 : ConfData}
    (hd : DataOk towlower d) (hfind : findSections towlower d q = none)
    (hsettings : importSettings towlower fuel q ss d = some d1)
    (hupdate : confUpdate towlower fuel d1 q none none .updateTemplates = some d2) :
    ∃ copy tmpls n,
      Copied (newSection d.nextId q).markVirtual (ss.filter fun s => !s.fromTemplate) copy ∧
        (∃ k, copy.Ok k) ∧ (∀ t ∈ tmpls, t.fromTemplate = true) ∧
        d2 = (addMarked d q true Section.markVirtual).put
          (copy.withoutTemplates.addAll tmpls) n := by
  have hadded := findSections_addMarked hd true marks_virtual hfind
  have hd0 := (addMarked_edits true marks_virtual hfind).dataOk hd
  -- the settings are copied to the new section, also when it is the last update that adds it
  have hcopy : ∃ d1', importSettings towlower fuel q ss (addMarked d q true Section.markVirtual) =
      some d1' ∧ confUpdate towlower fuel d1' q none none .updateTemplates = some d2 := by
    induction ss with
    | nil =>
      rw [← Option.some.inj hsettings,
        confUpdate_addMarked hd hfind (by decide) (by decide)] at hupdate
      exact ⟨_, rfl, hupdate⟩
    | cons s rest ih =>
      rw [importSettings] at hsettings ⊢
      by_cases htmpl : s.fromTemplate = true
      · rw [if_pos htmpl] at hsettings ⊢
        exact ih hsettings
      · rw [if_neg htmpl] at hsettings ⊢
        rw [confUpdate_addMarked hd hfind (by decide) (by decide)] at hsettings
        exact ⟨d1, hsettings, hupdate⟩
  obtain ⟨d1', hsettings', hupdate'⟩ := hcopy
  obtain ⟨copy, n, hcopied, rfl⟩ := importSettings_put ss hd0 hadded hsettings'
  have hd1 := (importSettings_edits ss hsettings').dataOk hd0
  have hfind1 := findSections_put hd0 hd1 hadded hcopied.same.id hcopied.same.name
  obtain ⟨tmpls, n', htmpls, rfl⟩ := confUpdate_put hd1 hfind1 (by decide) hupdate'
  have hchanged : copy.changed towlower n none none .updateTemplates = copy.withoutTemplates := by
    unfold Section.changed
    rw [if_pos ⟨rfl, by decide⟩]
    rfl
  rw [put_nextId, hchanged]
  have hok := hd1.settings copy (findSections_mem hfind1)
  refine ⟨copy, tmpls, n', hcopied, ⟨n, hok⟩, htmpls, put_put ?_⟩
  exact ((addAll_same _ _).trans (withoutTemplates_same copy)).id

end Sandboxie.Conf
