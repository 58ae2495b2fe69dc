import Mathlib.Data.Multiset.AddSub
import Sandboxie.Drv.ConfEnum
import Sandboxie.Lib.Run

/-!
# Reloads beside updates

`Conf_Read` builds the new configuration, copies the virtual sections of the old one to it and
puts it in the place of the old one, each with other steps in between; `Conf_Api_Update` changes
what is there.  An update between the copy and the swap of a reload goes to the configuration
that is thrown away.
-/

namespace Sandboxie.Conf

open Text Relation List

variable {towlower : WChar → WChar}

/-! ### The values of a virtual section -/

variable (towlower) in
/-- The values that queries for a name get to in a section, but for those from templates. -/
def visibleValues (d : ConfData) (q n : List WChar) : Multiset (List WChar) :=
  ↑(((seen towlower d q n false).filter fun s => !s.fromTemplate).map Setting.value)

variable (towlower) in
def virtualValues (d : ConfData) (q n : List WChar) : Option (Multiset (List WChar)) :=
  match findSections towlower d q with
  | none => none
  | some sec => if sec.isVirtual then some (visibleValues towlower d q n) else none

variable (towlower) in
def Section.users (sec : Section) (n : List WChar) : List Setting :=
  sec.settings.filter fun s => !s.fromTemplate && sameKey towlower n s.name

variable (towlower) in
def Section.userValues (sec : Section) (n : List WChar) : Multiset (List WChar) :=
  ↑((sec.users towlower n).map Setting.value)

variable {sec : Section} {d : ConfData} {q : List WChar}

theorem visibleValues_eq (hd : DataOk towlower d)
    (hfind : findSections towlower d q = some sec) (n : List WChar) :
    visibleValues towlower d q n = sec.userValues towlower n := by
  have hok := hd.settings sec (findSections_mem hfind)
  have hseen : seen towlower d q n false = sec.settingsMap.keyIter towlower n := by
    unfold seen
    rw [hfind]
    rfl
  refine Multiset.coe_eq_coe.mpr (List.Perm.map _ ?_)
  rw [hseen, Section.users]
  have hnodup : (sec.settingsMap.keyIter towlower n).Nodup := by
    rw [StrMap.keyIter_eq]
    exact (hok.withHash_nodup _).filter _
  refine (perm_ext_iff_of_nodup (hnodup.filter _) (hok.settings_nodup.filter _)).mpr ?_
  intro s
  rw [mem_filter, mem_filter, StrMap.mem_keyIter, hok.mem, Bool.and_eq_true]
  tauto

theorem virtualValues_of_mem (hd : DataOk towlower d)
    (hsec : sec ∈ d.sections) (hkey : sameKey towlower q sec.name = true)
    (hvirtual : sec.isVirtual = true) (n : List WChar) :
    virtualValues towlower d q n = some (sec.userValues towlower n) := by
  have hfind := hd.findSections_of_sameKey hsec hkey
  unfold virtualValues
  rw [hfind]
  dsimp only
  rw [if_pos hvirtual, visibleValues_eq hd hfind]

variable {q n : List WChar}

theorem virtualValues_eq_some (hd : DataOk towlower d) {m : Multiset (List WChar)}
    (h : virtualValues towlower d q n = some m) :
    ∃ sec ∈ d.sections, sameKey towlower q sec.name = true ∧ sec.isVirtual = true ∧
      sec.userValues towlower n = m := by
  unfold virtualValues at h
  split at h
  · cases h
  · rename_i sec hfind
    split at h
    · rename_i hvirtual
      rw [visibleValues_eq hd hfind] at h
      exact ⟨sec, findSections_mem hfind, hd.sameKey_of_findSections hfind, hvirtual,
        Option.some.inj h⟩
    · cases h

/-! ### What changes the values of a name -/

theorem users_add {s : Setting} {insert : Bool}
    (h : (!s.fromTemplate && sameKey towlower n s.name) = false) :
    (sec.add s insert).users towlower n = sec.users towlower n := by
  unfold Section.users Section.add
  split
  · rw [filter_cons_of_neg (by rw [h]; decide)]
  · rw [filter_append, filter_cons_of_neg (by rw [h]; decide), filter_nil,
      append_nil]

theorem users_addAll (n : List WChar) : ∀ (ss : List Setting) (sec : Section),
    (∀ s ∈ ss, s.fromTemplate = true) → (sec.addAll ss).users towlower n =
      sec.users towlower n := by
  intro ss
  induction ss with
  | nil => exact fun _ _ => rfl
  | cons s ss ih =>
    intro sec hss
    refine (ih (sec.add s false) fun t ht => hss t (mem_cons_of_mem s ht)).trans ?_
    exact users_add (by rw [hss s mem_cons_self]; rfl)

theorem filter_erase_of_neg {p : Setting → Bool} {s : Setting} (hs : p s = false) :
    ∀ l : List Setting, (l.erase s).filter p = l.filter p := by
  intro l
  induction l with
  | nil => rfl
  | cons t rest ih =>
    by_cases heq : t = s
    · rw [heq, erase_cons_head, filter_cons_of_neg (by rw [hs]; decide)]
    · rw [erase_cons_tail (by rw [beq_iff_eq]; exact heq), filter_cons,
        filter_cons, ih]

theorem users_foldl_remove : ∀ (ss : List Setting) (sec : Section),
    (∀ s ∈ ss, (!s.fromTemplate && sameKey towlower n s.name) = false) →
      (ss.foldl Section.remove sec).users towlower n = sec.users towlower n := by
  intro ss
  induction ss with
  | nil => exact fun _ _ => rfl
  | cons s ss ih =>
    intro sec hss
    refine (ih (sec.remove s) fun t ht => hss t (mem_cons_of_mem s ht)).trans ?_
    exact filter_erase_of_neg (hss s mem_cons_self) sec.settings

theorem users_withoutTemplates (sec : Section) (n : List WChar) :
    sec.withoutTemplates.users towlower n = sec.users towlower n := by
  refine users_foldl_remove _ _ fun s hs => ?_
  rw [(mem_filter.mp hs).2]
  rfl

variable {value : Option (List WChar)} {mode : Mode}

theorem users_withoutOld {name : List WChar} (hother : sameKey towlower n name = false) :
    (sec.withoutOld towlower name value mode).users towlower n = sec.users towlower n := by
  unfold Section.withoutOld
  split
  · rfl
  · refine users_foldl_remove _ _ fun s hs => ?_
    have hkey : sameKey towlower name s.name = true :=
      (StrMap.mem_keyIter.mp ((takeWhile_sublist _).subset (mem_filter.mp hs).1)).2
    refine Bool.and_eq_false_imp.mpr fun _ => Bool.not_eq_true _ |>.mp fun hn => ?_
    rw [sameKey_comm] at hkey hn
    rw [sameKey_comm, sameKey_trans hkey hn] at hother
    cases hother

theorem users_changed {k : Nat} {name : Option (List WChar)}
    (hother : ∀ nm, name = some nm → sameKey towlower n nm = false) :
    (sec.changed towlower k name value mode).users towlower n = sec.users towlower n := by
  have hnamed : (sec.changeNamed towlower k name value mode).users towlower n =
      sec.users towlower n := by
    unfold Section.changeNamed
    cases name with
    | none => rfl
    | some nm =>
      have hnm := hother nm rfl
      dsimp only
      split
      · rfl
      unfold Section.changeValues
      cases value with
      | none => exact users_withoutOld hnm
      | some v =>
        dsimp only
        split
        · exact users_withoutOld hnm
        · refine (users_add ?_).trans (users_withoutOld hnm)
          rw [hnm]
          rfl
  unfold Section.changed
  split
  · rw [users_withoutTemplates, hnamed]
  · exact hnamed

variable (towlower) in
/-- A section stands for another one: it has its name and its values of `n`. -/
def Section.StandsFor (n : List WChar) (sec' sec : Section) : Prop :=
  sec'.name = sec.name ∧ sec'.isVirtual = sec.isVirtual ∧
    sec'.userValues towlower n = sec.userValues towlower n

theorem mem_addMarked_of_mem (hd : DataOk towlower d)
    {insert : Bool} {mark : Section → Section} (hsec : sec ∈ d.sections) :
    sec ∈ (addMarked d q insert mark).sections := by
  refine mem_modify.mpr ⟨sec, mem_addSections.mpr (Or.inl hsec), (if_neg fun hid => ?_).symm⟩
  have := hd.lt sec hsec
  omega

variable (towlower) in
/-- An update is about a name of a section, or removes the section. -/
def Touches (q n q' : List WChar) (name : Option (List WChar)) (mode : Mode) : Prop :=
  sameKey towlower q q' = true ∧
    (mode = .removeSection ∨ ∃ nm, name = some nm ∧ sameKey towlower n nm = true)

/-- **An update** that is not about a name of a section leaves its values. -/
theorem confUpdate_keeps {fuel : Nat} {d d' : ConfData} {q' : List WChar}
    {name : Option (List WChar)} (hd : DataOk towlower d)
    (h : confUpdate towlower fuel d q' name value mode = some d')
    (hsec : sec ∈ d.sections) (hkey : sameKey towlower q sec.name = true)
    (hother : ¬ Touches towlower q n q' name mode) :
    ∃ sec' ∈ d'.sections, sec'.StandsFor towlower n sec := by
  have hfound : ∀ {d : ConfData} {s : Section}, DataOk towlower d → sec ∈ d.sections →
      findSections towlower d q' = some s →
      confUpdate towlower fuel d q' name value mode = some d' →
      ∃ sec' ∈ d'.sections, sec'.StandsFor towlower n sec := by
    intro d s hd hsec hfind h
    have hsame : sec = s → sameKey towlower q q' = true := by
      rintro rfl
      have hq' := hd.sameKey_of_findSections hfind
      rw [sameKey_comm] at hkey hq' ⊢
      exact sameKey_trans hq' hkey
    by_cases hmode : mode = .removeSection
    · rw [confUpdate, hfind] at h
      dsimp only at h
      rw [updateSection, if_pos hmode] at h
      rw [← Option.some.inj h]
      refine ⟨sec, (hd.mem_dropSection (findSections_mem hfind)).mpr ⟨hsec, fun heq => ?_⟩,
        rfl, rfl, rfl⟩
      exact hother ⟨hsame heq, Or.inl hmode⟩
    · obtain ⟨ss, k, hss, rfl⟩ := confUpdate_put hd hfind hmode h
      have hsames : ((s.changed towlower d.nextId name value mode).addAll ss).Same s :=
        (addAll_same _ _).trans (changed_same _ _ _ _ _)
      have hid := hsames.id
      by_cases heq : sec = s
      · refine ⟨_, (mem_put (findSections_mem hfind) hid).mpr (Or.inr rfl), ?_⟩
        rw [heq]
        refine ⟨hsames.name, hsames.isVirtual, ?_⟩
        unfold Section.userValues
        rw [users_addAll n ss _ hss, users_changed fun nm hnm => ?_]
        exact Bool.not_eq_true _ |>.mp fun hn => hother ⟨hsame heq, Or.inr ⟨nm, hnm, hn⟩⟩
      · refine ⟨sec, (mem_put (findSections_mem hfind) hid).mpr (Or.inl ⟨hsec, fun hids => ?_⟩),
          rfl, rfl, rfl⟩
        exact heq (inj_on_of_nodup_map hd.nodup hsec (findSections_mem hfind) (hids.trans hid))
  cases hfind : findSections towlower d q' with
  | some s => exact hfound hd hsec hfind h
  | none =>
    by_cases hremove : mode = .removeValue ∨ mode = .removeSection
    · rw [confUpdate, hfind] at h
      rw [if_pos hremove] at h
      rw [← Option.some.inj h]
      exact ⟨sec, hsec, rfl, rfl, rfl⟩
    · obtain ⟨hvalue, hsection⟩ := not_or.mp hremove
      rw [confUpdate_addMarked hd hfind hvalue hsection] at h
      exact hfound ((addMarked_edits true marks_virtual hfind).dataOk hd)
        (mem_addMarked_of_mem hd hsec) (findSections_addMarked hd true marks_virtual hfind) h

/-! ### What a reload copies -/

theorem Copied.values {sec sec' : Section} {ss : List Setting} (h : Copied sec ss sec')
    (n : List WChar) : sec'.isVirtual = sec.isVirtual ∧
      ((∀ s ∈ ss, s.fromTemplate = false) → sec'.userValues towlower n =
        ↑((ss.filter fun s => sameKey towlower n s.name).map Setting.value) +
          sec.userValues towlower n) := by
  induction h with
  | refl =>
    refine ⟨rfl, fun _ => ?_⟩
    rw [filter_nil, map_nil, Multiset.coe_nil, Multiset.zero_add]
  | @cons sec sec' s rest k tmpls htmpls _ ih =>
    obtain ⟨hvirtual, hvalues⟩ := ih
    refine ⟨hvirtual.trans (addAll_same tmpls _).isVirtual, fun hss => ?_⟩
    rw [hvalues fun t ht => hss t (mem_cons_of_mem s ht), Section.userValues,
      users_addAll n tmpls _ htmpls]
    have hrest : (s :: rest).filter (fun s => sameKey towlower n s.name) =
        if sameKey towlower n s.name then s :: rest.filter fun s => sameKey towlower n s.name
        else rest.filter fun s => sameKey towlower n s.name := filter_cons
    by_cases hkey : sameKey towlower n s.name = true
    · have hadd : (sec.add ⟨k, s.name, s.value, false⟩ true).users towlower n =
          ⟨k, s.name, s.value, false⟩ :: sec.users towlower n :=
        filter_cons_of_pos hkey
      rw [hadd, hrest, if_pos hkey, map_cons, map_cons, ← Multiset.cons_coe,
        ← Multiset.cons_coe, Multiset.add_cons, Multiset.cons_add]
      rfl
    · have hadd : (sec.add ⟨k, s.name, s.value, false⟩ true).users towlower n =
          sec.users towlower n :=
        users_add (Bool.and_eq_false_imp.mpr fun _ => Bool.not_eq_true _ |>.mp hkey)
      rw [hadd, hrest, if_neg hkey]
      rfl

/-- A virtual section is copied from another one: its values are put in front of a new section,
and settings from templates come to the end. -/
def Section.CopyOf (sec' sec : Section) : Prop :=
  ∃ id copy tmpls, Copied (newSection id sec.name).markVirtual
      (sec.settings.filter fun s => !s.fromTemplate) copy ∧
    (∃ k, copy.Ok k) ∧ (∀ t ∈ tmpls, t.fromTemplate = true) ∧
    sec' = copy.withoutTemplates.addAll tmpls

theorem Section.CopyOf.same {sec' sec : Section} (h : sec'.CopyOf sec) :
    ∃ id, sec'.Same (newSection id sec.name).markVirtual := by
  obtain ⟨id, copy, tmpls, hcopied, -, -, rfl⟩ := h
  exact ⟨id, (addAll_same tmpls _).trans ((withoutTemplates_same copy).trans hcopied.same)⟩

theorem Section.CopyOf.standsFor {sec' sec : Section} (h : sec'.CopyOf sec)
    (hvirtual : sec.isVirtual = true) (n : List WChar) : sec'.StandsFor towlower n sec := by
  obtain ⟨_, hsame⟩ := h.same
  refine ⟨hsame.name, hsame.isVirtual.trans hvirtual.symm, ?_⟩
  obtain ⟨_, copy, tmpls, hcopied, -, htmpls, rfl⟩ := h
  have hvalues := (@Copied.values towlower _ _ _ hcopied n).2 fun s hs => by
    rw [← Bool.not_eq_true']
    exact (mem_filter.mp hs).2
  unfold Section.userValues at hvalues ⊢
  rw [users_addAll n tmpls _ htmpls, users_withoutTemplates, hvalues, filter_filter]
  refine (Multiset.add_zero _).trans ?_
  refine Multiset.coe_eq_coe.mpr (List.Perm.of_eq (congrArg (List.map Setting.value) ?_))
  exact filter_congr fun s _ => Bool.and_comm _ _

/-- A reload has the virtual sections of the old configuration, and those of the files. -/
theorem importVirtual_copyOf {fuel : Nat} : ∀ (secs : List Section)
    {d d' : ConfData}, DataOk towlower d →
      importVirtual towlower fuel secs d = some (.read d') →
      (∀ sec ∈ d.sections, sec ∈ d'.sections) ∧
      (∀ sec ∈ secs, sec.isVirtual = true → ∃ sec' ∈ d'.sections, sec'.CopyOf sec) ∧
      ∀ sec' ∈ d'.sections, sec' ∈ d.sections ∨
        ∃ sec ∈ secs, sec.isVirtual = true ∧ sec'.CopyOf sec := by
  intro secs
  induction secs with
  | nil =>
    intro d d' _ h
    rw [← ReadResult.read.inj (Option.some.inj h)]
    exact ⟨fun _ hsec => hsec, fun _ hsec => (by cases hsec), fun _ hsec => Or.inl hsec⟩
  | cons sec rest ih =>
    intro d d' hd h
    rw [importVirtual] at h
    split at h
    · rename_i hvirtual
      split at h
      · cases h
      rename_i hfind
      split at h
      · cases h
      rename_i hsettings
      split at h
      · cases h
      rename_i hupdate
      have hd2 := Edits.dataOk
        ((importSettings_edits _ hsettings).trans (confUpdate_edits hupdate)) hd
      obtain ⟨copy, tmpls, k, hcopied, hok, htmpls, rfl⟩ :=
        importOne_put hd hfind hsettings hupdate
      have hnew := mem_addMarked d sec.name true Section.markVirtual
      have hstands : (copy.withoutTemplates.addAll tmpls).CopyOf sec :=
        ⟨d.nextId, copy, tmpls, hcopied, hok, htmpls, rfl⟩
      have hid := ((addAll_same tmpls _).trans
        ((withoutTemplates_same copy).trans hcopied.same)).id
      obtain ⟨hkept, hcopied', honly⟩ := ih hd2 h
      have hmem := fun x => mem_put (x := x) (n := k) hnew hid
      refine ⟨fun x hx => hkept x ((hmem x).mpr (Or.inl ⟨mem_addMarked_of_mem hd hx, ?_⟩)),
        fun x hx hxvirtual => ?_, fun x hx => ?_⟩
      · intro hxid
        have hlt := hd.lt x hx
        rw [hxid, hid] at hlt
        exact Nat.lt_irrefl _ hlt
      · rcases mem_cons.mp hx with rfl | hx
        · exact ⟨_, hkept _ ((hmem _).mpr (Or.inr rfl)), hstands⟩
        · exact hcopied' x hx hxvirtual
      · rcases honly x hx with hx | ⟨y, hy, hyvirtual, hystands⟩
        · rcases (hmem x).mp hx with ⟨hx, hxid⟩ | rfl
          · refine Or.inl ?_
            obtain ⟨y, hy, rfl⟩ := mem_modify.mp hx
            rcases mem_addSections.mp hy with hy | rfl
            · split
              · rename_i hyid
                have := hd.lt y hy
                omega
              · exact hy
            · have hxid' : (newSection d.nextId sec.name).markVirtual.id ≠
                  (copy.withoutTemplates.addAll tmpls).id := by
                rw [if_pos (show (newSection d.nextId sec.name).id = d.nextId from rfl)] at hxid
                exact hxid
              exact absurd hid.symm hxid'
          · exact Or.inr ⟨sec, mem_cons_self, hvirtual, hstands⟩
        · exact Or.inr ⟨y, mem_cons_of_mem sec hy, hyvirtual, hystands⟩
    · rename_i hfile
      obtain ⟨hkept, hcopied, honly⟩ := ih hd h
      refine ⟨hkept, fun x hx hxvirtual => ?_, fun x hx => ?_⟩
      · rcases mem_cons.mp hx with rfl | hx
        · exact absurd hxvirtual hfile
        · exact hcopied x hx hxvirtual
      · refine (honly x hx).imp_right ?_
        rintro ⟨y, hy, hystands⟩
        exact ⟨y, mem_cons_of_mem sec hy, hystands⟩

/-- **A reload leaves the virtual sections**, when none of the files has one. -/
theorem importVirtual_values {fuel : Nat} {old d d' : ConfData} (hold : DataOk towlower old)
    (hd : DataOk towlower d) (hfile : ∀ sec ∈ d.sections, sec.isVirtual = false)
    (h : importVirtual towlower fuel old.sections d = some (.read d')) (q n : List WChar) :
    virtualValues towlower d' q n = virtualValues towlower old q n := by
  have hd' := (importVirtual_edits _ h).dataOk hd
  obtain ⟨_, hcopied, honly⟩ := importVirtual_copyOf old.sections hd h
  cases hvalues : virtualValues towlower old q n with
  | some m =>
    obtain ⟨sec, hsec, hkey, hvirtual, rfl⟩ := virtualValues_eq_some hold hvalues
    obtain ⟨sec', hsec', hcopy⟩ := hcopied sec hsec hvirtual
    obtain ⟨hname, hsame, huser⟩ := @Section.CopyOf.standsFor towlower _ _ hcopy hvirtual n
    rw [virtualValues_of_mem hd' hsec' (by rw [hname]; exact hkey) (hsame.trans hvirtual), huser]
  | none =>
    cases hvalues' : virtualValues towlower d' q n with
    | none => rfl
    | some m =>
      obtain ⟨sec', hsec', hkey, hvirtual, _⟩ := virtualValues_eq_some hd' hvalues'
      rcases honly sec' hsec' with hsec | ⟨sec, hsec, hsecVirtual, hcopy⟩
      · rw [hfile sec' hsec] at hvirtual
        cases hvirtual
      · rw [(@Section.CopyOf.standsFor towlower _ _ hcopy hsecVirtual n).1] at hkey
        rw [virtualValues_of_mem hold hsec hkey hsecVirtual] at hvalues
        cases hvalues

/-! ### Interleavings -/

/-- How far a `Conf_Read` is. -/
inductive Phase
  | idle
  | built (d : ConfData)
  | copied (d : ConfData)

/-- `Conf_Data`, and the reloads that are under way. -/
structure Shared where
  data : ConfData
  reloads : Nat → Phase

/-- The reload `i` comes to a phase. -/
def Shared.phase (s : Shared) (i : Nat) (p : Phase) : Shared :=
  { s with reloads := fun j => if j = i then p else s.reloads j }

inductive Event
  | build (i : Nat)
  | copy (i : Nat)
  | swap (i : Nat)
  | update (q : List WChar) (name value : Option (List WChar)) (mode : Mode)

variable (towlower) in
/-- The steps of `Conf_Read` and `Conf_Api_Update`.  A reload ends without a swap when the files
have a section of the name of a virtual one. -/
inductive Step : Shared → Event → Shared → Prop
  | build {s : Shared} {i fuel : Nat} {files : Files} {d : ConfData}
      (hidle : s.reloads i = .idle) (hread : readFiles towlower fuel files = some d) :
      Step s (.build i) (s.phase i (.built d))
  | copy {s : Shared} {i fuel : Nat} {d d' : ConfData} (hbuilt : s.reloads i = .built d)
      (himport : importVirtual towlower fuel s.data.sections d = some (.read d')) :
      Step s (.copy i) (s.phase i (.copied d'))
  | clash {s : Shared} {i fuel : Nat} {d : ConfData} (hbuilt : s.reloads i = .built d)
      (himport : importVirtual towlower fuel s.data.sections d = some .nameExists) :
      Step s (.copy i) (s.phase i .idle)
  | swap {s : Shared} {i : Nat} {d : ConfData} (hcopied : s.reloads i = .copied d) :
      Step s (.swap i) ({ s with data := d }.phase i .idle)
  | update {s : Shared} {fuel : Nat} {q : List WChar} {name value : Option (List WChar)}
      {mode : Mode} {d : ConfData}
      (hupdate : confUpdate towlower fuel s.data q name value mode = some d) :
      Step s (.update q name value mode) { s with data := d }

/-- No update commits between the copy and the swap of a reload. -/
def Quiet (s : Shared) : Event → Prop
  | .update _ _ _ _ => ∀ i d, s.reloads i ≠ .copied d
  | _ => True

variable (towlower) in
/-- The event is about a name of a section. -/
def Event.Touches (q n : List WChar) : Event → Prop
  | .update q' name _ mode => Conf.Touches towlower q n q' name mode
  | _ => False

variable (towlower) in
def Shared.Start (s : Shared) : Prop := Reachable towlower s.data ∧ ∀ i, s.reloads i = .idle

variable (towlower) in
/-- What a reload has built has no virtual section, and what it has copied has those that are
there. -/
def Phase.Ok (data : ConfData) : Phase → Prop
  | .idle => True
  | .built d => DataOk towlower d ∧ ∀ sec ∈ d.sections, sec.isVirtual = false
  | .copied d => DataOk towlower d ∧
      ∀ q n, virtualValues towlower d q n = virtualValues towlower data q n

variable (towlower) in
/-- The invariant of runs where no update commits between a copy and a swap. -/
def Shared.Ok (s : Shared) : Prop :=
  DataOk towlower s.data ∧ ∀ i, (s.reloads i).Ok towlower s.data

theorem Shared.Start.ok {s : Shared} (h : s.Start towlower) : s.Ok towlower := by
  refine ⟨h.1.dataOk, fun i => ?_⟩
  rw [h.2 i]
  trivial

theorem Shared.Ok.phase {s : Shared} (h : s.Ok towlower) {i : Nat} {p : Phase}
    (hp : p.Ok towlower s.data) : (s.phase i p).Ok towlower := by
  refine ⟨h.1, fun j => ?_⟩
  show (if j = i then p else s.reloads j).Ok towlower s.data
  split
  · exact hp
  · exact h.2 j

theorem readFiles_file {fuel : Nat} {files : Files}
    (h : readFiles towlower fuel files = some d) : ∀ sec ∈ d.sections, sec.isVirtual = false := by
  have hsections : ∀ (fromTemplate : Bool) (ini : List IniSection) {d : ConfData},
      (∀ x ∈ d.sections, x.isVirtual = false) →
      ∀ x ∈ (readSections towlower fromTemplate ini d).sections, x.isVirtual = false :=
    fun fromTemplate ini _ hd => forall_readSections fromTemplate (fun _ _ => rfl)
      (fun _ hx => hx) (fun _ _ _ _ hx => hx) ini hd
  have hincludes : ∀ {d : ConfData}, (∀ x ∈ d.sections, x.isVirtual = false) →
      ∀ x ∈ (importAllIncludes towlower files.includes d).sections, x.isVirtual = false :=
    fun hd => forall_importAllIncludes (fun _ _ => rfl) (fun _ _ hx => hx)
      (fun _ _ _ _ _ hx => hx) files.includes hd
  have htemplates := hsections true files.templates (hincludes (hsections false files.ini
    (d := emptyData files.home files.path) fun _ hx => (by cases hx)))
  have hmerge : ∀ {a b : ConfData}, MergedAll a b → (∀ x ∈ a.sections, x.isVirtual = false) →
      ∀ x ∈ b.sections, x.isVirtual = false := by
    intro a b hab ha
    induction hab with
    | refl => exact ha
    | tail _ hstep ih =>
      obtain ⟨id, name, value, rfl⟩ := hstep
      exact forall_addSetting ih fun x hx _ => ih x hx
  exact hmerge (mergeAllTemplates_merged h) htemplates

theorem Step.ok {s s' : Shared} {e : Event} (hs : s.Ok towlower) (h : Step towlower s e s')
    (hquiet : Quiet s e) : s'.Ok towlower := by
  cases h with
  | build hidle hread =>
    exact hs.phase ⟨(readFiles_edits hread).dataOk (DataOk.empty _ _), readFiles_file hread⟩
  | @copy i fuel d d' hbuilt himport =>
    have hok := hs.2 i
    rw [hbuilt] at hok
    exact hs.phase ⟨(importVirtual_edits _ himport).dataOk hok.1,
      importVirtual_values hs.1 hok.1 hok.2 himport⟩
  | clash hbuilt himport => exact hs.phase trivial
  | @swap i d hcopied =>
    have hok := hs.2 i
    rw [hcopied] at hok
    refine Shared.Ok.phase (s := { s with data := d }) ⟨hok.1, fun j => ?_⟩ trivial
    have hj := hs.2 j
    show (s.reloads j).Ok towlower d
    cases hphase : s.reloads j with
    | idle => trivial
    | built d1 =>
      rw [hphase] at hj
      exact hj
    | copied d1 =>
      rw [hphase] at hj
      exact ⟨hj.1, fun q n => (hj.2 q n).trans (hok.2 q n).symm⟩
  | @update fuel q name value mode d hupdate =>
    refine ⟨(confUpdate_edits hupdate).dataOk hs.1, fun j => ?_⟩
    have hj := hs.2 j
    show (s.reloads j).Ok towlower d
    cases hphase : s.reloads j with
    | idle => trivial
    | built d1 =>
      rw [hphase] at hj
      exact hj
    | copied d1 => exact absurd hphase (hquiet j d1)

theorem Step.keeps {s s' : Shared} {e : Event} (hs : s.Ok towlower) (h : Step towlower s e s')
    (hother : ¬ e.Touches towlower q n) {m : Multiset (List WChar)}
    (hvalues : virtualValues towlower s.data q n = some m) :
    virtualValues towlower s'.data q n = some m := by
  cases h with
  | build hidle hread => exact hvalues
  | copy hbuilt himport => exact hvalues
  | clash hbuilt himport => exact hvalues
  | @swap i d hcopied =>
    have hok := hs.2 i
    rw [hcopied] at hok
    exact (hok.2 q n).trans hvalues
  | @update fuel q' name value mode d hupdate =>
    obtain ⟨sec, hsec, hkey, hvirtual, rfl⟩ := virtualValues_eq_some hs.1 hvalues
    obtain ⟨sec', hsec', hname, hsame, huser⟩ := confUpdate_keeps hs.1 hupdate hsec hkey hother
    refine (virtualValues_of_mem ((confUpdate_edits hupdate).dataOk hs.1) hsec' ?_
      (hsame.trans hvirtual) n).trans (congrArg some huser)
    rw [hname]
    exact hkey

variable (towlower) in
abbrev Runs (s : Shared) (es : List Event) (s' : Shared) : Prop :=
  Run (Step towlower) Quiet s es s'

def noSection : Shared := ⟨emptyData 1 none, fun _ => .idle⟩

theorem noSection_start : noSection.Start asciiLower := ⟨.init 1 none, fun _ => rfl⟩

theorem noSection_read :
    readFiles asciiLower 0 ⟨1, none, [], [], fun _ => []⟩ = some (emptyData 1 none) := rfl

theorem noSection_build : Step asciiLower noSection (.build 0)
    (noSection.phase 0 (.built (emptyData 1 none))) := .build rfl noSection_read

/-- `Foo=1` is put into `Box`. -/
def setFoo : Event :=
  .update (wide ['B', 'o', 'x']) (some (wide ['F', 'o', 'o'])) (some (wide ['1'])) .appendValue

theorem setFoo_step (s : Shared) (h : s.data = emptyData 1 none) :
    Step asciiLower s setFoo { s with data := oneValue } := by
  have hupdate := oneValue_update
  rw [← h] at hupdate
  exact .update hupdate

end Sandboxie.Conf
