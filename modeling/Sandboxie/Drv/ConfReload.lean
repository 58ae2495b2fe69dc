import Sandboxie.Drv.ConfOrder

/-!
# List and map agree

Reading a file puts its settings at the ends of the list and of the chains, and so does
merging; the value that an include gets, and the values of a virtual section that a reload
copies, are put in front of the list.  `confRead_inOrder` is what a reload needs for the order:
no include has a `FileRootPath` of its own, and no virtual section has two values of one name.

With that, and with what an update needs (`UpdateFree`), lists and maps agree in every
configuration that reads and updates lead to (`list_map_agree`).
-/

namespace Sandboxie.Conf

open Text Relation List

variable {towlower : WChar → WChar}

/-! ### Reading -/

variable (towlower) in
/-- A section that is being read: in order, and nothing is from a template. -/
def Section.Plain (sec : Section) : Prop :=
  sec.InOrder towlower ∧ ∀ s ∈ sec.settings, s.fromTemplate = false

variable {sec : Section} {insert : Bool}

theorem mem_add {s t : Setting} :
    t ∈ (sec.add s insert).settings ↔ t ∈ sec.settings ∨ t = s := by
  unfold Section.add
  cases insert with
  | true => rw [if_pos rfl, mem_cons, or_comm]
  | false => rw [if_neg (by decide), mem_append, mem_singleton]

theorem Section.Plain.add_last (h : sec.Plain towlower) {s : Setting}
    (hs : s.fromTemplate = false) : (sec.add s false).Plain towlower := by
  refine ⟨h.1.add_last (Or.inr h.2), fun t ht => ?_⟩
  rcases mem_add.mp ht with ht | rfl
  · exact h.2 t ht
  · exact hs

variable {d : ConfData} {P : Section → Prop}

theorem forall_addSetting {id : Nat} {name value : List WChar}
    {fromTemplate : Bool} (h : ∀ x ∈ d.sections, P x)
    (hadd : ∀ x ∈ d.sections, x.id = id → P (x.add ⟨d.nextId, name, value, fromTemplate⟩ insert)) :
    ∀ x ∈ (addSetting d id name value insert fromTemplate).sections, P x := by
  intro x hx
  obtain ⟨y, hy, rfl⟩ := mem_modify.mp hx
  by_cases hid : y.id = id
  · rw [if_pos hid]
    exact hadd y hy hid
  · rw [if_neg hid]
    exact h y hy

theorem forall_readSettings (id : Nat) :
    ∀ (ss : List (List WChar × List WChar)) {d : ConfData}, (∀ x ∈ d.sections, P x) →
      (∀ x n, ∀ s ∈ ss, P x → P (x.add ⟨n, s.1, s.2, false⟩ false)) →
      ∀ x ∈ (readSettings id ss d).sections, P x := by
  intro ss
  induction ss with
  | nil => exact fun h _ => h
  | cons s rest ih =>
    exact fun h hadd => ih
      (forall_addSetting h fun x hx _ => hadd x _ s mem_cons_self (h x hx))
      fun x n t ht => hadd x n t (mem_cons_of_mem s ht)

theorem forall_addMarked {name : List WChar} {mark : Section → Section} (h : ∀ x ∈ d.sections, P x)
    (hnew : P (newSection d.nextId name))
    (hmark : ∀ x, P x → P (mark x)) : ∀ x ∈ (addMarked d name insert mark).sections, P x := by
  intro x hx
  obtain ⟨y, hy, rfl⟩ := mem_modify.mp hx
  have hyp : P y := by
    rcases mem_addSections.mp hy with hy | rfl
    · exact h y hy
    · exact hnew
  split
  · exact hmark y hyp
  · exact hyp

theorem forall_readSections (fromTemplate : Bool)
    (hnew : ∀ n name, P (newSection n name)) (hmark : ∀ x, P x → P (x.markTemplate fromTemplate))
    (hadd : ∀ x n name value, P x → P (x.add ⟨n, name, value, false⟩ false)) :
    ∀ (ini : List IniSection) {d : ConfData}, (∀ x ∈ d.sections, P x) →
      ∀ x ∈ (readSections towlower fromTemplate ini d).sections, P x := by
  intro ini
  induction ini with
  | nil => exact fun h => h
  | cons s rest ih =>
    intro d h
    rw [readSections]
    split
    · exact ih (forall_readSettings _ _ h fun x n t _ hx => hadd x n t.1 t.2 hx)
    · refine ih (forall_readSettings _ _ ?_ fun x n t _ hx => hadd x n t.1 t.2 hx)
      exact forall_addMarked h (hnew _ _) hmark

theorem Section.Plain.new (id : Nat) (name : List WChar) :
    (newSection id name).Plain towlower :=
  ⟨Section.InOrder.new id name, fun _ hs => (by cases hs)⟩

theorem Section.Plain.mark (h : sec.Plain towlower) {mark : Section → Section}
    (hmark : Marks mark) : (mark sec).Plain towlower := by
  refine ⟨h.1.mark (hmark sec).2.2.1 (hmark sec).2.2.2, fun s hs => ?_⟩
  rw [(hmark sec).2.2.1] at hs
  exact h.2 s hs

theorem readSections_plain (fromTemplate : Bool) (ini : List IniSection) {d : ConfData}
    (h : ∀ x ∈ d.sections, x.Plain towlower) :
    ∀ x ∈ (readSections towlower fromTemplate ini d).sections, x.Plain towlower :=
  forall_readSections fromTemplate Section.Plain.new (fun _ hx => hx.mark (marks_template _))
    (fun _ _ _ _ hx => hx.add_last rfl) ini h

variable (towlower) in
/-- The include has no `FileRootPath` of its own, or cannot be read. -/
def Include.Free (inc : Include) : Prop :=
  inc.readable = true → ∀ s ∈ inc.ini.settings, sameKey towlower fileRootPath s.1 = false

theorem importInclude_plain (hd : DataOk towlower d)
    (h : ∀ x ∈ d.sections, x.Plain towlower) {inc : Include} (hinc : inc.Free towlower) :
    ∀ x ∈ (importInclude towlower d inc).sections, x.Plain towlower := by
  unfold importInclude
  split
  · exact h
  dsimp only
  have hadded : ∀ x ∈ (addMarked d inc.ini.name false (Section.markInclude inc.path)).sections,
      x.Plain towlower :=
    forall_addMarked h (Section.Plain.new _ _) fun x hx => hx.mark (marks_include _)
  have hread := forall_readSettings d.nextId inc.ini.settings hadded
    fun x n t _ hx => hx.add_last rfl
  split
  · rename_i hreadable
    -- the settings of the new section are those of the file
    have hfree : ∀ x ∈ (readSettings d.nextId inc.ini.settings
        (addMarked d inc.ini.name false (Section.markInclude inc.path))).sections,
        x.id = d.nextId → ∀ t ∈ x.settings, sameKey towlower fileRootPath t.name = false := by
      refine forall_readSettings d.nextId inc.ini.settings ?_ ?_
      · refine forall_addMarked (fun x hx hid => ?_) (fun _ t ht => (by cases ht))
          fun x hx => hx
        exact absurd (hd.lt x hx) (by omega)
      · intro x n s hs hx hid t ht
        rcases mem_add.mp ht with ht | rfl
        · exact hx hid t ht
        · exact hinc hreadable s hs
    refine forall_addSetting hread fun x hx hid => ?_
    refine ⟨(hread x hx).1.add_first fun t ht => hfree x hx hid t ht, fun t ht => ?_⟩
    rcases mem_add.mp ht with ht | rfl
    · exact (hread x hx).2 t ht
    · rfl
  · split
    · exact hread
    · exact fun x hx => hread x (mem_of_mem_eraseP hx)

theorem importIncludes_plain : ∀ (incs : List Include) {d : ConfData}, DataOk towlower d →
    (∀ x ∈ d.sections, x.Plain towlower) → (∀ inc ∈ incs, inc.Free towlower) →
      ∀ x ∈ (incs.foldl (importInclude towlower) d).sections, x.Plain towlower := by
  intro incs
  induction incs with
  | nil => exact fun _ h _ => h
  | cons inc rest ih =>
    intro d hd h hfree
    exact ih ((importInclude_edits d inc).dataOk hd)
      (importInclude_plain hd h (hfree inc mem_cons_self))
      fun i hi => hfree i (mem_cons_of_mem inc hi)

variable (towlower) in
/-- None of the includes has a `FileRootPath` of its own. -/
def Files.Free (files : Files) : Prop := ∀ v, ∀ inc ∈ files.includes v, inc.Free towlower

theorem mergedAll_inOrder {d d' : ConfData} (h : MergedAll d d') (hd : InOrder towlower d) :
    InOrder towlower d' := by
  induction h with
  | refl => exact hd
  | tail _ hstep ih =>
    obtain ⟨id, name, value, rfl⟩ := hstep
    exact forall_addSetting ih fun x hx _ => (ih x hx).add_last (Or.inl rfl)

theorem readFiles_inOrder {fuel : Nat} {files : Files}
    (hfiles : files.Free towlower) (h : readFiles towlower fuel files = some d) :
    InOrder towlower d := by
  have hempty : DataOk towlower (emptyData files.home files.path) := DataOk.empty _ _
  have hini := @readSections_plain towlower false files.ini
    (emptyData files.home files.path) fun _ hx => (by cases hx)
  have hincludes : ∀ x ∈ (importAllIncludes towlower files.includes
      (readSections towlower false files.ini (emptyData files.home files.path))).sections,
      x.Plain towlower := by
    unfold importAllIncludes
    split
    · exact hini
    · refine importIncludes_plain _ ((readSections_edits false files.ini _).dataOk hempty) hini ?_
      intro inc hinc
      obtain ⟨s, _, hs⟩ := mem_flatMap.mp hinc
      exact hfiles s.value inc hs
  refine mergedAll_inOrder (mergeAllTemplates_merged h) fun x hx => ?_
  exact (readSections_plain true files.templates hincludes x hx).1

/-! ### Reloading -/

variable (towlower) in
/-- The values of a section that are not from templates have different names. -/
def Section.Single (sec : Section) : Prop :=
  (sec.settings.filter fun s => !s.fromTemplate).Pairwise fun s t =>
    sameKey towlower s.name t.name = false

theorem mem_addAll {t : Setting} : ∀ (ss : List Setting) {sec : Section},
    t ∈ (sec.addAll ss).settings ↔ t ∈ sec.settings ∨ t ∈ ss := by
  intro ss
  induction ss with
  | nil => exact ⟨Or.inl, fun h => h.resolve_right not_mem_nil⟩
  | cons s ss ih =>
    intro sec
    show t ∈ ((sec.add s false).addAll ss).settings ↔ _
    rw [ih, mem_add, mem_cons, or_assoc]

theorem Copied.userOrder {sec' : Section} {ss : List Setting} (h : Copied sec ss sec') :
    sec.UserOrder towlower →
      (ss.Pairwise fun s t => sameKey towlower s.name t.name = false) →
      (∀ s ∈ ss, ∀ t ∈ sec.settings, t.fromTemplate = false →
        sameKey towlower s.name t.name = false) → sec'.UserOrder towlower := by
  induction h with
  | refl => exact fun h _ _ => h
  | cons n tmpls htmpls _ ih =>
    rename_i sec sec' s rest _
    intro horder hsingle hfree
    obtain ⟨hs, hrest⟩ := pairwise_cons.mp hsingle
    refine ih (addAll_userOrder tmpls (horder.add_first (hfree s mem_cons_self))) hrest ?_
    intro u hu t ht huser
    rcases (mem_addAll tmpls).mp ht with ht | ht
    · rcases mem_add.mp ht with ht | rfl
      · exact hfree u (mem_cons_of_mem s hu) t ht huser
      · rw [sameKey_comm]
        exact hs u hu
    · rw [htmpls t ht] at huser
      cases huser

theorem importVirtual_inOrder {fuel : Nat} : ∀ (secs : List Section) {d d' : ConfData},
    DataOk towlower d → InOrder towlower d →
      (∀ sec ∈ secs, sec.isVirtual = true → sec.Single towlower) →
      importVirtual towlower fuel secs d = some (.read d') → InOrder towlower d' := by
  intro secs
  induction secs with
  | nil =>
    intro d d' _ h _ hread
    rw [← ReadResult.read.inj (Option.some.inj hread)]
    exact h
  | cons sec rest ih =>
    intro d d' hd h hsingle hread
    have hrest := fun x hx => hsingle x (mem_cons_of_mem sec hx)
    rw [importVirtual] at hread
    split at hread
    · rename_i hvirtual
      split at hread
      · cases hread
      rename_i hfind
      split at hread
      · cases hread
      rename_i hsettings
      split at hread
      · cases hread
      rename_i hupdate
      have hd2 := Edits.dataOk
        ((importSettings_edits _ hsettings).trans (confUpdate_edits hupdate)) hd
      obtain ⟨copy, tmpls, n, hcopied, ⟨k, hok⟩, htmpls, rfl⟩ :=
        importOne_put hd hfind hsettings hupdate
      have hnew : (newSection d.nextId sec.name).markVirtual.InOrder towlower :=
        (Section.InOrder.new d.nextId sec.name).mark rfl rfl
      have hcopy := hcopied.userOrder hnew.userOrder (hsingle sec mem_cons_self hvirtual)
        fun _ _ t ht => (by cases ht)
      refine ih hd2 (forall_put (fun x hx _ => ?_) ?_) hrest hread
      · exact addMarked_inOrder h sec.name true marks_virtual x hx
      · exact addAll_inOrder tmpls (withoutTemplates_inOrder hcopy hok) htmpls
    · exact ih hd h hrest hread

theorem confRead_inOrder {fuel : Nat} {files : Files} {old d : ConfData}
    (hfiles : files.Free towlower)
    (hold : ∀ sec ∈ old.sections, sec.isVirtual = true → sec.Single towlower)
    (h : confRead towlower fuel files old = some (.read d)) : InOrder towlower d := by
  unfold confRead at h
  split at h
  · cases h
  · rename_i hread
    exact importVirtual_inOrder old.sections ((readFiles_edits hread).dataOk (DataOk.empty _ _))
      (readFiles_inOrder hfiles hread) hold h

/-! ### Runs -/

variable (towlower) in
/-- A configuration that reads and updates lead to, where each of them keeps the order. -/
inductive Orderly : ConfData → Prop
  | init (home : Nat) (path : Option (List WChar)) : Orderly (emptyData home path)
  | read {fuel : Nat} {files : Files} {old d : ConfData} (h : Orderly old)
      (hread : confRead towlower fuel files old = some (.read d)) (hfiles : files.Free towlower)
      (hold : ∀ sec ∈ old.sections, sec.isVirtual = true → sec.Single towlower) : Orderly d
  | update {fuel : Nat} {d d' : ConfData} {q : List WChar} {name value : Option (List WChar)}
      {mode : Mode} (h : Orderly d)
      (hupdate : confUpdate towlower fuel d q name value mode = some d')
      (hfree : UpdateFree towlower d q name value mode) : Orderly d'

theorem Orderly.reachable (h : Orderly towlower d) : Reachable towlower d := by
  induction h with
  | init home path => exact .init home path
  | read _ hread _ _ ih => exact .read ih hread
  | update _ hupdate _ ih => exact .update ih hupdate

theorem Orderly.inOrder (h : Orderly towlower d) : InOrder towlower d := by
  induction h with
  | init => exact fun _ hx => (by cases hx)
  | read _ hread hfiles hold _ => exact confRead_inOrder hfiles hold hread
  | update h hupdate hfree ih => exact confUpdate_inOrder h.reachable.dataOk ih hfree hupdate

variable (towlower) in
/-- The iteration over a name gives the settings of the list that have the name without regard
to case, in their order, with those from templates last. -/
def Section.Agrees (sec : Section) (q : List WChar) : Prop :=
  sec.settingsMap.keyIter towlower q =
      (sec.settings.filter fun s => sameNoCase towlower s.name q) ∧
    (sec.settings.filter fun s => sameNoCase towlower s.name q).Pairwise fun s t =>
      s.fromTemplate = true → t.fromTemplate = true

/-- **List and map agree** on a name exactly when the settings with the name have its hash, in
every configuration where reads and updates keep the order. -/
theorem list_map_agree {d : ConfData} (h : Orderly towlower d) :
    ∀ sec ∈ d.sections, ∀ q, sec.Agrees towlower q ↔
      ∀ s ∈ sec.settings, sameNoCase towlower s.name q = true →
        strMapHash s.name = strMapHash q := by
  intro sec hsec q
  have horder := h.inOrder sec hsec
  unfold Section.Agrees
  rw [horder.order]
  refine ⟨fun heq s hs hmatch => ?_, fun hhash => ?_⟩
  · have hmem : s ∈ sec.listed towlower q := by
      rw [heq.1]
      exact mem_filter.mpr ⟨hs, hmatch⟩
    exact (sameKey_iff.mp (mem_filter.mp hmem).2).1
  · have heq : sec.listed towlower q =
        sec.settings.filter fun s => sameNoCase towlower s.name q := by
      refine filter_congr fun s hs => Bool.eq_iff_iff.mpr ?_
      rw [sameKey_iff]
      exact ⟨fun hkey => hkey.2, fun hmatch => ⟨hhash s hs hmatch, hmatch⟩⟩
    rw [← heq]
    exact ⟨rfl, horder.last q⟩

/-! ### Two values of one name -/

/-- The virtual section `Box` with `Foo=1`. -/
def oneValue : ConfData :=
  addSetting (addMarked (emptyData 1 none) (wide ['B', 'o', 'x']) true Section.markVirtual) 0
    (wide ['F', 'o', 'o']) (wide ['1']) true false

theorem oneValue_update : confUpdate asciiLower 0 (emptyData 1 none) (wide ['B', 'o', 'x'])
    (some (wide ['F', 'o', 'o'])) (some (wide ['1'])) .appendValue = some oneValue := rfl

/-- With one value list and map agree. -/
theorem list_map_agree_one :
    ((newSection 0 (wide ['B', 'o', 'x'])).markVirtual.add
      ⟨1, wide ['F', 'o', 'o'], wide ['1'], false⟩ true).Agrees asciiLower
        (wide ['F', 'o', 'o']) := by
  have horderly : Orderly asciiLower oneValue := by
    refine .update (.init 1 none) oneValue_update fun sec hfind => ?_
    cases findSections_mem hfind
  refine (list_map_agree horderly _ mem_cons_self _).mpr fun s hs _ => ?_
  obtain rfl := mem_singleton.mp hs
  rfl

/-- `Foo=2` is appended: in front of the list, and at the end of the chain. -/
theorem list_map_disagree :
    ¬ ∀ d, Reachable asciiLower d → ∀ sec ∈ d.sections, ∀ q, sec.Agrees asciiLower q := by
  intro h
  have hupdate : confUpdate asciiLower 0 oneValue (wide ['B', 'o', 'x'])
      (some (wide ['F', 'o', 'o'])) (some (wide ['2'])) .appendValue =
      some (addSetting oneValue 0 (wide ['F', 'o', 'o']) (wide ['2']) true false) := rfl
  have hagrees := h _ (.update (.update (.init 1 none) oneValue_update) hupdate) _
    mem_cons_self (wide ['F', 'o', 'o'])
  have hkeys : (((newSection 0 (wide ['B', 'o', 'x'])).markVirtual.add
      ⟨1, wide ['F', 'o', 'o'], wide ['1'], false⟩ true).add
      ⟨2, wide ['F', 'o', 'o'], wide ['2'], false⟩ true).settingsMap.keyIter asciiLower
        (wide ['F', 'o', 'o']) =
      [⟨1, wide ['F', 'o', 'o'], wide ['1'], false⟩,
        ⟨2, wide ['F', 'o', 'o'], wide ['2'], false⟩] :=
    rfl
  have horder := hkeys.symm.trans hagrees.1
  revert horder
  decide

end Sandboxie.Conf
