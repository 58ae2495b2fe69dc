import Sandboxie.Drv.ConfShare

/-!
# Strings in use

`Conf_Get` gives a pointer to a string of the configuration.  A reader counts itself in
`use_count` first, and `Conf_Read` does not throw the old configuration away while somebody is
counted.  `Conf_Update` and the reset of `Conf_Api_Reload` free strings all the same.
-/

namespace Sandboxie.Conf

open Text Relation List

variable {towlower : WChar → WChar}

/-! ### The strings of a configuration -/

def Section.strings (sec : Section) : List Str :=
  .sectionName sec.id sec.name ::
    ((sec.includePath.map (Str.includePath sec.id)).toList ++
      sec.settings.flatMap fun s => [.value s, .settingName s])

def strings (d : ConfData) : List Str :=
  (d.path.map Str.confPath).toList ++ d.sections.flatMap Section.strings

variable {d : ConfData} {sec : Section} {str : Str}

theorem mem_strings_of_section (hsec : sec ∈ d.sections)
    (h : str ∈ sec.strings) : str ∈ strings d :=
  mem_append_right _ (mem_flatMap.mpr ⟨sec, hsec, h⟩)

variable {s : Setting}

theorem value_mem_strings (hs : s ∈ sec.settings) :
    Str.value s ∈ sec.strings :=
  mem_cons_of_mem _ (mem_append_right _
    (mem_flatMap.mpr ⟨s, hs, mem_cons_self⟩))

theorem settingName_mem_strings (hs : s ∈ sec.settings) :
    Str.settingName s ∈ sec.strings :=
  mem_cons_of_mem _ (mem_append_right _
    (mem_flatMap.mpr ⟨s, hs, mem_cons_of_mem _ (mem_singleton_self _)⟩))

theorem mem_of_getLoop (skipTmpl : Bool) (l : List Setting) (i : Nat)
    (h : (getLoop skipTmpl l i).1 = some s) : s ∈ l := by
  rw [(getLoop_eq skipTmpl l i).1] at h
  have hmem := mem_of_getElem? h
  unfold seenIn at hmem
  split at hmem
  · exact (takeWhile_sublist _).subset hmem
  · exact hmem

theorem mem_of_getHelper (hd : DataOk towlower d) {q n : List WChar} {i : Nat} {skipTmpl : Bool}
    (h : (getHelper towlower d q n i skipTmpl).1 = some s) : Str.value s ∈ strings d := by
  unfold getHelper at h
  cases hfind : findSections towlower d q with
  | none =>
    rw [hfind] at h
    cases h
  | some sec =>
    rw [hfind] at h
    dsimp only at h
    split at h
    · cases h
    · have hsec := findSections_mem hfind
      have hmem := (StrMap.mem_keyIter.mp (mem_of_getLoop _ _ _ h)).1
      exact mem_strings_of_section hsec
        (value_mem_strings (((hd.settings sec hsec).mem s).mp hmem))

theorem mem_of_getValue (hd : DataOk towlower d) {a : Option (List WChar)}
    {n : List WChar} {i : Nat} {skipTmpl checkGlobal : Bool}
    (h : (getValue towlower d a n i skipTmpl checkGlobal).1 = some s) :
    Str.value s ∈ strings d := by
  have hglobal : ∀ {j : Nat}, (if (getHelper towlower d globalSettings n j skipTmpl).1.isSome = true
      then ((getHelper towlower d globalSettings n j skipTmpl).1,
        (getHelper towlower d globalSettings n j skipTmpl).2 ||| getNoGlobal)
      else getHelper towlower d globalSettings n j skipTmpl).1 = some s →
      Str.value s ∈ strings d := by
    intro j hj
    split at hj
    · exact mem_of_getHelper hd hj
    · exact mem_of_getHelper hd hj
  unfold getValue at h
  cases a with
  | none =>
    dsimp only at h
    split at h
    · exact hglobal h
    · cases h
  | some q =>
    dsimp only at h
    split at h
    · exact hglobal h
    · exact mem_of_getHelper hd h

theorem mem_of_nameLoop (skipTmpl : Bool) (l before : List Setting) (i : Nat)
    (h : nameLoop towlower skipTmpl before l i = some s) : s ∈ l := by
  rw [nameLoop_eq] at h
  have hmem := (firstNames_sublist _ _).subset (mem_of_getElem? h)
  unfold seenIn at hmem
  split at hmem
  · exact (takeWhile_sublist _).subset hmem
  · exact hmem

theorem mem_of_getSectionName (skipTmpl : Bool) : ∀ (l : List Section) (i : Nat) {sec : Section},
    getSectionName towlower skipTmpl l i = some sec → sec ∈ l := by
  intro l
  induction l with
  | nil => exact fun _ _ h => (by cases h)
  | cons x rest ih =>
    intro i sec h
    rw [getSectionName] at h
    split at h
    · exact mem_cons_of_mem x (ih i h)
    · split at h
      · cases h
      · split at h
        · rw [← Option.some.inj h]
          exact mem_cons_self
        · exact mem_cons_of_mem x (ih _ h)

theorem mem_of_getProp {q n : List WChar}
    (h : getProp towlower d q n = some str) : str ∈ strings d ∨ ∃ c, str = .letter c := by
  unfold getProp at h
  cases hfind : findSections towlower d q with
  | none =>
    rw [hfind] at h
    cases h
  | some x =>
    rw [hfind] at h
    dsimp only at h
    split at h
    · exact .inr ⟨_, (Option.some.inj h).symm⟩
    · split at h
      · obtain ⟨path, hpath, rfl⟩ := Option.map_eq_some_iff.mp h
        refine .inl (mem_strings_of_section (findSections_mem hfind) ?_)
        refine mem_cons_of_mem _ (mem_append_left _ ?_)
        rw [hpath]
        exact mem_singleton_self _
      · cases h

/-- **What a query gives** is a string of the configuration, or a letter. -/
theorem confGet_mem (hd : DataOk towlower d) {a b : Option (List WChar)} {i : Nat}
    (h : confGet towlower d a b i = some str) :
    str ∈ strings d ∨ ∃ c, str = .letter c := by
  unfold confGet getEx at h
  dsimp only at h
  split at h
  · split at h
    · rename_i path hpath
      refine .inl (mem_append_left _ ?_)
      rw [← Option.some.inj h, hpath]
      exact mem_singleton_self _
    · exact .inr ⟨_, (Option.some.inj h).symm⟩
  · split at h
    · split at h
      · dsimp only at h
        split at h
        · exact mem_of_getProp h
        · cases h
      · cases h
    · split at h
      · obtain ⟨s, hs, rfl⟩ := Option.map_eq_some_iff.mp h
        exact .inl (mem_of_getValue hd hs)
      · split at h
        · obtain ⟨s, hs, rfl⟩ := Option.map_eq_some_iff.mp h
          refine .inl ?_
          unfold getSettingName at hs
          split at hs
          · cases hs
          · rename_i sec hfind
            split at hs
            · cases hs
            · exact mem_strings_of_section (findSections_mem hfind)
                (settingName_mem_strings (mem_of_nameLoop _ _ _ _ hs))
        · obtain ⟨sec, hsec, rfl⟩ := Option.map_eq_some_iff.mp h
          exact .inl (mem_strings_of_section (mem_of_getSectionName _ _ _ hsec)
            mem_cons_self)

/-! ### What an update frees -/

variable (towlower) in
def removesFrom (sec : Section) (name value : Option (List WChar)) (mode : Mode) : Bool :=
  mode = .removeSection ||
    (name.any fun nm => mode ≠ .updateTemplates && mode ≠ .appendValue &&
      oldValues towlower sec nm value mode ≠ []) ||
    (aboutTemplates towlower name mode && mode ≠ .appendValue &&
      sec.settings.any fun s => s.fromTemplate)

variable (towlower) in
def removes (d : ConfData) (q : List WChar) (name value : Option (List WChar)) (mode : Mode) :
    Bool :=
  match findSections towlower d q with
  | none => false
  | some sec => removesFrom towlower sec name value mode

theorem Section.Same.strings_subset {a b : Section} (h : a.Same b)
    (hs : ∀ s ∈ b.settings, s ∈ a.settings) : ∀ str ∈ b.strings, str ∈ a.strings := by
  intro str hstr
  unfold Section.strings at hstr ⊢
  rw [h.id, h.name, h.includePath]
  rcases mem_cons.mp hstr with hstr | hstr
  · exact mem_cons.mpr (.inl hstr)
  · refine mem_cons_of_mem _ (mem_append.mpr ?_)
    refine (mem_append.mp hstr).imp_right fun hmem => ?_
    obtain ⟨s, hmem, hstr⟩ := mem_flatMap.mp hmem
    exact mem_flatMap.mpr ⟨s, hs s hmem, hstr⟩

theorem strings_subset {d d' : ConfData} (hpath : d'.path = d.path)
    (h : ∀ sec ∈ d.sections, ∃ sec' ∈ d'.sections, ∀ str ∈ sec.strings, str ∈ sec'.strings) :
    ∀ str ∈ strings d, str ∈ strings d' := by
  intro str hstr
  unfold strings at hstr ⊢
  rw [hpath]
  refine mem_append.mpr ((mem_append.mp hstr).imp_right fun hmem => ?_)
  obtain ⟨sec, hsec, hstr⟩ := mem_flatMap.mp hmem
  obtain ⟨sec', hsec', hsub⟩ := h sec hsec
  exact mem_flatMap.mpr ⟨sec', hsec', hsub str hstr⟩

theorem mem_changed {k : Nat} {name value : Option (List WChar)} {mode : Mode}
    (hok : sec.Ok k) (h : removesFrom towlower sec name value mode = false) :
    ∀ s ∈ sec.settings, s ∈ (sec.changed towlower k name value mode).settings := by
  obtain ⟨hrest, htmpls⟩ := Bool.or_eq_false_iff.mp h
  obtain ⟨_, hnames⟩ := Bool.or_eq_false_iff.mp hrest
  -- the old values are none
  have hold : ∀ nm, name = some nm → mode ≠ .updateTemplates →
      sec.withoutOld towlower nm value mode = sec := by
    rintro nm rfl hmode
    unfold Section.withoutOld
    split
    · rfl
    · rename_i happend
      rw [Option.any_some, decide_eq_true hmode, decide_eq_true happend, Bool.true_and,
        Bool.true_and, decide_eq_false_iff_not, not_not] at hnames
      rw [hnames]
      rfl
  have hnamed : ∀ s ∈ sec.settings, s ∈ (sec.changeNamed towlower k name value mode).settings := by
    intro s hs
    unfold Section.changeNamed
    split
    · split
      · exact hs
      · rename_i nm hmode
        unfold Section.changeValues
        split
        · split
          · rw [hold nm rfl hmode]
            exact hs
          · rw [hold nm rfl hmode]
            exact mem_add.mpr (.inl hs)
        · rw [hold nm rfl hmode]
          exact hs
    · exact hs
  intro s hs
  unfold Section.changed
  split
  · rename_i habout
    have hnone := htmpls
    rw [habout.1, decide_eq_true habout.2, Bool.true_and, Bool.true_and, any_eq_false] at hnone
    exact (mem_withoutTemplates (changeNamed_ok hok name value mode)).mpr
      ⟨hnamed s hs, Bool.not_eq_true _ |>.mp (hnone s hs)⟩
  · exact hnamed s hs

theorem confUpdate_strings {fuel : Nat} {d d' : ConfData} {q : List WChar}
    {name value : Option (List WChar)} {mode : Mode} (hd : DataOk towlower d)
    (hupdate : confUpdate towlower fuel d q name value mode = some d')
    (h : removes towlower d q name value mode = false) :
    ∀ str ∈ strings d, str ∈ strings d' := by
  have hfound : ∀ {d : ConfData} {sec : Section}, DataOk towlower d →
      findSections towlower d q = some sec → removesFrom towlower sec name value mode = false →
      confUpdate towlower fuel d q name value mode = some d' →
      ∀ str ∈ strings d, str ∈ strings d' := by
    intro d sec hd hfind h hupdate
    have hsec := findSections_mem hfind
    have hmode : mode ≠ .removeSection := by
      intro hmode
      rw [removesFrom, decide_eq_true hmode] at h
      cases h
    obtain ⟨ss, k, hss, rfl⟩ := confUpdate_put hd hfind hmode hupdate
    have hsame : ((sec.changed towlower d.nextId name value mode).addAll ss).Same sec :=
      (addAll_same _ _).trans (changed_same _ _ _ _ _)
    refine strings_subset rfl fun x hx => ?_
    by_cases heq : x = sec
    · rw [heq]
      refine ⟨_, (mem_put hsec hsame.id).mpr (.inr rfl), hsame.strings_subset fun s hs => ?_⟩
      exact (mem_addAll ss).mpr (.inl (mem_changed (hd.settings sec hsec) h s hs))
    · refine ⟨x, (mem_put hsec hsame.id).mpr (.inl ⟨hx, fun hid => heq ?_⟩), fun _ h => h⟩
      exact inj_on_of_nodup_map hd.nodup hx hsec (hid.trans hsame.id)
  cases hfind : findSections towlower d q with
  | some sec =>
    rw [removes, hfind] at h
    exact hfound hd hfind h hupdate
  | none =>
    by_cases hremove : mode = .removeValue ∨ mode = .removeSection
    · rw [confUpdate, hfind] at hupdate
      rw [if_pos hremove] at hupdate
      rw [← Option.some.inj hupdate]
      exact fun _ hstr => hstr
    · obtain ⟨hvalue, hsection⟩ := not_or.mp hremove
      rw [confUpdate_addMarked hd hfind hvalue hsection] at hupdate
      have hadded : ∀ str ∈ strings d, str ∈ strings (addMarked d q true Section.markVirtual) :=
        strings_subset rfl fun x hx => ⟨x, mem_addMarked_of_mem hd hx, fun _ h => h⟩
      intro str hstr
      refine hfound ((addMarked_edits true marks_virtual hfind).dataOk hd)
        (findSections_addMarked hd true marks_virtual hfind) ?_ hupdate str (hadded str hstr)
      -- a new section has nothing that could be removed
      have hold : ∀ nm, oldValues towlower (newSection d.nextId q).markVirtual nm value
        mode = [] := by
        intro nm
        have hnone : (newSection d.nextId q).markVirtual.settingsMap.keyIter towlower nm = [] := by
          refine eq_nil_iff_forall_not_mem.mpr fun s hs => ?_
          exact not_mem_nil
            (((Section.Ok.new (n := 0) d.nextId q).mem s).mp (StrMap.mem_keyIter.mp hs).1)
        unfold oldValues
        rw [hnone]
        rfl
      unfold removesFrom
      rw [decide_eq_false hsection, Bool.false_or, Bool.or_eq_false_iff]
      refine ⟨?_, Bool.and_false _⟩
      cases name with
      | none => rfl
      | some nm =>
        rw [Option.any_some, hold nm]
        exact Bool.and_false _

/-! ### Readers -/

/-- A string that a reader has, with the pool that it is in. -/
structure Held where
  pool : Nat
  str : Str
deriving DecidableEq

/-- Who has counted itself, and the strings it has got since. -/
structure Reader where
  id : Nat
  held : List Held

/-- `Conf_Data` with its pool and its count, and the readers. -/
structure Used where
  shared : Shared
  pool : Nat
  useCount : Nat
  readers : List Reader

/-- A step of a reload or an update, the reset of a reload that found no file, or a step of a
reader. -/
inductive Action
  | conf (e : Event)
  | reset
  | enter (r : Nat)
  | get (r : Nat) (sectionName settingName : Option (List WChar)) (index : Nat)
  | leave (r : Nat)

variable (towlower) in
def Reader.get (s : Used) (sectionName settingName : Option (List WChar)) (index : Nat)
    (x : Reader) : Reader :=
  match confGet towlower s.shared.data sectionName settingName index with
  | some str => { x with held := ⟨s.pool, str⟩ :: x.held }
  | none => x

variable (towlower) in
/-- The steps.  Only the swap waits for the count. -/
inductive UseStep : Used → Action → Used → Prop
  | conf {s : Used} {e : Event} {t : Shared} (hswap : ∀ i, e ≠ .swap i)
      (hstep : Step towlower s.shared e t) : UseStep s (.conf e) { s with shared := t }
  | swap {s : Used} {i : Nat} {t : Shared} (hfree : s.useCount = 0)
      (hstep : Step towlower s.shared (.swap i) t) :
      UseStep s (.conf (.swap i)) { s with shared := t, pool := s.pool + 1 }
  | reset (s : Used) : UseStep s .reset
      { s with shared := { s.shared with data := emptyData 0 none }, pool := s.pool + 1 }
  | enter {s : Used} {r : Nat} (hnew : ∀ x ∈ s.readers, x.id ≠ r) : UseStep s (.enter r)
      { s with useCount := s.useCount + 1, readers := ⟨r, []⟩ :: s.readers }
  | get {s : Used} {r index : Nat} {sectionName settingName : Option (List WChar)}
      (hin : ∃ x ∈ s.readers, x.id = r) : UseStep s (.get r sectionName settingName index)
      { s with readers := s.readers.map fun x =>
          if x.id = r then x.get towlower s sectionName settingName index else x }
  | leave {s : Used} {r : Nat} (hin : ∃ x ∈ s.readers, x.id = r) : UseStep s (.leave r)
      { s with
        useCount := s.useCount - 1
        readers := s.readers.eraseP fun x => x.id == r }

/-- A step frees a string: the configuration pointed to it and does not any more. -/
def Freed (s s' : Used) (h : Held) : Prop :=
  h.pool = s.pool ∧ h.str ∈ strings s.shared.data ∧
    ¬ (s'.pool = s.pool ∧ h.str ∈ strings s'.shared.data)

variable (towlower) in
/-- An update that removes something, and a reset of a configuration with strings, only take
place while nobody is counted. -/
def Careful (s : Used) : Action → Prop
  | .conf (.update q name value mode) =>
    s.useCount = 0 ∨ removes towlower s.shared.data q name value mode = false
  | .reset => s.useCount = 0 ∨ strings s.shared.data = []
  | _ => True

variable (towlower) in
def Used.Start (s : Used) : Prop := s.shared.Start towlower ∧ s.useCount = 0 ∧ s.readers = []

/-- A string is there: the configuration points to it, or it is static. -/
def Live (s : Used) (h : Held) : Prop :=
  (h.pool = s.pool ∧ h.str ∈ strings s.shared.data) ∨ ∃ c, h.str = .letter c

variable (towlower) in
/-- The invariant: everybody who reads is counted, and has only strings that are there. -/
structure Used.Ok (s : Used) : Prop where
  data : DataOk towlower s.shared.data
  built : ∀ i d, s.shared.reloads i = .built d ∨ s.shared.reloads i = .copied d →
    DataOk towlower d
  count : s.useCount = s.readers.length
  live : ∀ x ∈ s.readers, ∀ h ∈ x.held, Live s h

theorem Used.Start.ok {s : Used} (h : s.Start towlower) : s.Ok towlower := by
  obtain ⟨⟨hreach, hidle⟩, hcount, hreaders⟩ := h
  refine ⟨hreach.dataOk, fun i d hphase => ?_, ?_, fun x hx => ?_⟩
  · rw [hidle i] at hphase
    rcases hphase with hphase | hphase <;> cases hphase
  · rw [hcount, hreaders]
    rfl
  · rw [hreaders] at hx
    cases hx

theorem Step.dataOk {s t : Shared} {e : Event} (h : Step towlower s e t)
    (hdata : DataOk towlower s.data)
    (hbuilt : ∀ i d, s.reloads i = .built d ∨ s.reloads i = .copied d → DataOk towlower d) :
    DataOk towlower t.data ∧
      ∀ i d, t.reloads i = .built d ∨ t.reloads i = .copied d → DataOk towlower d := by
  have hphase : ∀ (s : Shared) (i : Nat) (p : Phase),
      (∀ j d, s.reloads j = .built d ∨ s.reloads j = .copied d → DataOk towlower d) →
      (∀ d, p = .built d ∨ p = .copied d → DataOk towlower d) →
      ∀ j d, (s.phase i p).reloads j = .built d ∨ (s.phase i p).reloads j = .copied d →
        DataOk towlower d := by
    intro s i p hs hp j d hj
    have hj' : (if j = i then p else s.reloads j) = .built d ∨
        (if j = i then p else s.reloads j) = .copied d := hj
    split at hj'
    · exact hp d hj'
    · exact hs j d hj'
  cases h with
  | build hidle hread =>
    refine ⟨hdata, hphase _ _ _ hbuilt fun d hd => ?_⟩
    rcases hd with hd | hd
    · rw [← Phase.built.inj hd]
      exact (readFiles_edits hread).dataOk (DataOk.empty _ _)
    · cases hd
  | copy hb himport =>
    refine ⟨hdata, hphase _ _ _ hbuilt fun d hd => ?_⟩
    rcases hd with hd | hd
    · cases hd
    · rw [← Phase.copied.inj hd]
      exact (importVirtual_edits _ himport).dataOk (hbuilt _ _ (.inl hb))
  | clash hb himport =>
    refine ⟨hdata, hphase _ _ _ hbuilt fun d hd => ?_⟩
    rcases hd with hd | hd <;> cases hd
  | swap hcopied =>
    refine ⟨hbuilt _ _ (.inr hcopied), hphase _ _ _ hbuilt fun d hd => ?_⟩
    rcases hd with hd | hd <;> cases hd
  | update hupdate => exact ⟨(confUpdate_edits hupdate).dataOk hdata, hbuilt⟩

theorem UseStep.not_freed {s s' : Used} {a : Action} (hs : s.Ok towlower)
    (h : UseStep towlower s a s') (hcareful : Careful towlower s a) :
    ∀ x ∈ s.readers, ∀ held ∈ x.held, ¬ Freed s s' held := by
  have hnobody : s.useCount = 0 → s.readers = [] := fun hzero =>
    length_eq_zero_iff.mp (hs.count.symm.trans hzero)
  intro x hx held hheld hfreed
  obtain ⟨_, hbefore, hafter⟩ := hfreed
  cases h with
  | @conf e t hswap hstep =>
    refine hafter ⟨rfl, ?_⟩
    cases hstep with
    | build hidle hread => exact hbefore
    | copy hb himport => exact hbefore
    | clash hb himport => exact hbefore
    | swap hcopied => exact absurd rfl (hswap _)
    | update hupdate =>
      rcases hcareful with hzero | hremoves
      · rw [hnobody hzero] at hx
        cases hx
      · exact confUpdate_strings hs.data hupdate hremoves _ hbefore
  | swap hfree hstep =>
    rw [hnobody hfree] at hx
    cases hx
  | reset =>
    rcases hcareful with hzero | hnone
    · rw [hnobody hzero] at hx
      cases hx
    · rw [hnone] at hbefore
      cases hbefore
  | enter hnew => exact hafter ⟨rfl, hbefore⟩
  | get hin => exact hafter ⟨rfl, hbefore⟩
  | leave hin => exact hafter ⟨rfl, hbefore⟩

theorem Live.of_not_freed {s s' : Used} {held : Held} (h : Live s held)
    (hfreed : ¬ Freed s s' held) : Live s' held := by
  rcases h with ⟨hpool, hmem⟩ | hletter
  · have hafter := not_not.mp fun hafter => hfreed ⟨hpool, hmem, hafter⟩
    exact .inl ⟨hpool.trans hafter.1.symm, hafter.2⟩
  · exact .inr hletter

theorem UseStep.ok {s s' : Used} {a : Action} (hs : s.Ok towlower)
    (h : UseStep towlower s a s') (hcareful : Careful towlower s a) : s'.Ok towlower := by
  have hlive : ∀ x ∈ s.readers, ∀ held ∈ x.held, Live s' held := fun x hx held hheld =>
    (hs.live x hx held hheld).of_not_freed (h.not_freed hs hcareful x hx held hheld)
  cases h with
  | conf hswap hstep =>
    obtain ⟨hdata, hbuilt⟩ := hstep.dataOk hs.data hs.built
    exact ⟨hdata, hbuilt, hs.count, hlive⟩
  | swap hfree hstep =>
    obtain ⟨hdata, hbuilt⟩ := hstep.dataOk hs.data hs.built
    exact ⟨hdata, hbuilt, hs.count, hlive⟩
  | reset => exact ⟨DataOk.empty 0 none, hs.built, hs.count, hlive⟩
  | enter hnew =>
    refine ⟨hs.data, hs.built, congrArg (· + 1) hs.count, fun x hx held hheld => ?_⟩
    rcases mem_cons.mp hx with rfl | hx
    · cases hheld
    · exact hlive x hx held hheld
  | @get r index sectionName settingName hin =>
    refine ⟨hs.data, hs.built, hs.count.trans (length_map _).symm, fun x hx held hheld => ?_⟩
    obtain ⟨y, hy, rfl⟩ := mem_map.mp hx
    split at hheld
    · unfold Reader.get at hheld
      split at hheld
      · rename_i str hget
        rcases mem_cons.mp hheld with rfl | hheld
        · exact (confGet_mem hs.data hget).imp_left fun hmem => ⟨rfl, hmem⟩
        · exact hlive y hy held hheld
      · exact hlive y hy held hheld
    · exact hlive y hy held hheld
  | @leave r hin =>
    obtain ⟨y, hy, hid⟩ := hin
    refine ⟨hs.data, hs.built, ?_, fun x hx => hlive x (mem_of_mem_eraseP hx)⟩
    show s.useCount - 1 = (s.readers.eraseP fun x => x.id == r).length
    have hmatch : (fun x : Reader => x.id == r) y = true := beq_iff_eq.mpr hid
    rw [length_eraseP_of_mem hy hmatch, hs.count]

/-- **No string is freed before its reader has left**, in every run whose updates and resets are
careful: the strings that readers have are there, and no careful step frees one. -/
theorem held_live {s s' : Used} {as : List Action} (hstart : s.Start towlower)
    (hrun : Run (UseStep towlower) (Careful towlower) s as s') :
    (∀ x ∈ s'.readers, ∀ held ∈ x.held, Live s' held) ∧
      ∀ a s'', UseStep towlower s' a s'' → Careful towlower s' a →
        ∀ x ∈ s'.readers, ∀ held ∈ x.held, ¬ Freed s' s'' held := by
  have hok : s'.Ok towlower := hrun.invariant hstart.ok fun ha h hcareful => h.ok ha hcareful
  exact ⟨hok.live, fun a s'' h hcareful => h.not_freed hok hcareful⟩

/-! ### A value that is replaced -/

/-- `Box` with `Foo=1`, and nobody counted. -/
def idleUsed : Used := ⟨⟨oneValue, fun _ => .idle⟩, 0, 0, []⟩

theorem idleUsed_start : idleUsed.Start asciiLower := by
  refine ⟨⟨?_, fun _ => rfl⟩, rfl, rfl⟩
  exact .update (.init 1 none) oneValue_update

/-- A query for `Foo`. -/
def getFoo : Action := .get 0 (some (wide ['B', 'o', 'x'])) (some (wide ['F', 'o', 'o'])) 0

def heldFoo : Held := ⟨0, .value ⟨1, wide ['F', 'o', 'o'], wide ['1'], false⟩⟩

/-- A reader has counted itself and has the value of `Foo`. -/
def readingFoo : Used := ⟨⟨oneValue, fun _ => .idle⟩, 0, 1, [⟨0, [heldFoo]⟩]⟩

theorem readingFoo_run (meets : Used → Action → Prop) (henter : meets idleUsed (.enter 0))
    (hget : meets ⟨idleUsed.shared, 0, 1, [⟨0, []⟩]⟩ getFoo) :
    Run (UseStep asciiLower) meets idleUsed [.enter 0, getFoo] readingFoo := by
  refine .cons (.enter fun _ hx => (by cases hx)) henter ?_
  exact .cons (.get ⟨_, mem_cons_self, rfl⟩) hget (.nil _)

/-- The value is there as long as nothing else happens. -/
theorem held_live_foo : Live readingFoo heldFoo :=
  (held_live idleUsed_start (readingFoo_run _ trivial trivial)).1 _ mem_cons_self _
    mem_cons_self

/-- `Foo=2` takes the place of `Foo=1` while the reader has it. -/
theorem held_freed :
    ¬ ∀ (s s' s'' : Used) (as : List Action) (a : Action), s.Start asciiLower →
      Run (UseStep asciiLower) (fun _ _ => True) s as s' → UseStep asciiLower s' a s'' →
      ∀ x ∈ s'.readers, ∀ held ∈ x.held, ¬ Freed s' s'' held := by
  intro h
  have hupdate : confUpdate asciiLower 0 oneValue (wide ['B', 'o', 'x'])
      (some (wide ['F', 'o', 'o'])) (some (wide ['2'])) .updateValue =
      some (addSetting (removeSettings oneValue 0
        [⟨1, wide ['F', 'o', 'o'], wide ['1'], false⟩]) 0 (wide ['F', 'o', 'o']) (wide ['2'])
        true false) := rfl
  refine h _ readingFoo _ _ _ idleUsed_start (readingFoo_run _ trivial trivial)
    (.conf (fun _ he => (by cases he)) (.update hupdate)) _ mem_cons_self heldFoo
    mem_cons_self ⟨rfl, by decide, fun hafter => ?_⟩
  revert hafter
  decide

end Sandboxie.Conf
