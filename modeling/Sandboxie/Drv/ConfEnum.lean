import Mathlib.Data.List.Sort
import Mathlib.Data.Nat.Bitwise
import Sandboxie.Drv.ConfGet
import Sandboxie.Drv.ConfReload

/-!
# Enumerating values and names

A query with the indices 0, 1, 2 and so on gives the values of a name one after the other:
those of the section that are not from templates, in the order in which they were added, then
those from templates, and then those of the global section.

After a `Conf_Read` the values from templates are last in every chain and every list
(`Section.TmplLast`), so that the loops may stop at the first of them.  `confGet_seen` is what a
query gives for each index; it is the law where the names are spelled alike
(`enumeration_iff`).
-/

namespace Sandboxie.Conf

open Text Relation List

variable {towlower : WChar → WChar}

/-! ### After a read -/

variable (towlower) in
/-- The settings from templates are last, in the list and in the iteration over each name. -/
structure Section.TmplLast (sec : Section) : Prop where
  list : sec.settings.Pairwise fun s t => s.fromTemplate = true → t.fromTemplate = true
  iter : ∀ q, (sec.settingsMap.keyIter towlower q).Pairwise fun s t =>
    s.fromTemplate = true → t.fromTemplate = true

/-- Nothing is from a template. -/
def Section.NoTmpl (sec : Section) : Prop := ∀ s ∈ sec.settings, s.fromTemplate = false

variable {sec : Section}

theorem Section.NoTmpl.tmplLast {n : Nat} (h : sec.NoTmpl) (hok : sec.Ok n) :
    sec.TmplLast towlower := by
  have hall : ∀ l : List Setting, (∀ s ∈ l, s.fromTemplate = false) →
      l.Pairwise fun s t => s.fromTemplate = true → t.fromTemplate = true := by
    intro l hl
    refine List.Pairwise.imp_of_mem (R := fun _ _ => True) (fun {s t} hs _ _ htmpl => ?_)
      (pairwise_of_forall fun _ _ => trivial)
    rw [hl s hs] at htmpl
    cases htmpl
  exact ⟨hall _ h, fun q => hall _ fun s hs => h s ((hok.mem s).mp (StrMap.mem_keyIter.mp hs).1)⟩

variable {s : Setting}

theorem Section.TmplLast.add (h : sec.TmplLast towlower)
    (hs : s.fromTemplate = true) : (sec.add s false).TmplLast towlower := by
  refine ⟨?_, fun q => ?_⟩
  · show (sec.settings ++ [s]).Pairwise _
    refine pairwise_append.mpr ⟨h.list, pairwise_singleton _ _, fun t _ u hu _ => ?_⟩
    rw [mem_singleton.mp hu]
    exact hs
  · rw [keyIter_add]
    refine pairwise_append.mpr ⟨h.iter q, ?_, fun t _ u hu _ => ?_⟩
    · split
      · exact pairwise_singleton _ _
      · exact List.Pairwise.nil
    · split at hu
      · rw [mem_singleton.mp hu]
        exact hs
      · cases hu

theorem addAll_tmplLast : ∀ (ss : List Setting) {sec : Section}, sec.TmplLast towlower →
    (∀ s ∈ ss, s.fromTemplate = true) → (sec.addAll ss).TmplLast towlower := by
  intro ss
  induction ss with
  | nil => exact fun h _ => h
  | cons s ss ih =>
    exact fun h hss => ih (h.add (hss s mem_cons_self))
      fun t ht => hss t (mem_cons_of_mem s ht)

theorem Section.NoTmpl.add (h : sec.NoTmpl) {insert : Bool}
    (hs : s.fromTemplate = false) : (sec.add s insert).NoTmpl := by
  intro t ht
  rcases mem_add.mp ht with ht | rfl
  · exact h t ht
  · exact hs

theorem readSections_noTmpl (fromTemplate : Bool) (ini : List IniSection) {d : ConfData}
    (h : ∀ x ∈ d.sections, x.NoTmpl) :
    ∀ x ∈ (readSections towlower fromTemplate ini d).sections, x.NoTmpl :=
  forall_readSections fromTemplate (fun _ _ _ hs => (by cases hs)) (fun _ hx => hx)
    (fun _ _ _ _ hx => hx.add rfl) ini h

variable {d : ConfData}

theorem forall_importAllIncludes {P : Section → Prop} (hnew : ∀ n name, P (newSection n name))
    (hmark : ∀ x path, P x → P (x.markInclude path))
    (hadd : ∀ x n name value insert, P x → P (x.add ⟨n, name, value, false⟩ insert))
    (includes : List WChar → List Include) (h : ∀ x ∈ d.sections, P x) :
    ∀ x ∈ (importAllIncludes towlower includes d).sections, P x := by
  have hone : ∀ (inc : Include) {d : ConfData}, (∀ x ∈ d.sections, P x) →
      ∀ x ∈ (importInclude towlower d inc).sections, P x := by
    intro inc d h
    unfold importInclude
    split
    · exact h
    dsimp only
    have hread : ∀ x ∈ (readSettings d.nextId inc.ini.settings
        (addMarked d inc.ini.name false (Section.markInclude inc.path))).sections, P x :=
      forall_readSettings _ _ (forall_addMarked h (hnew _ _) fun x hx => hmark x _ hx)
        fun x n t _ hx => hadd x n t.1 t.2 false hx
    split
    · exact forall_addSetting hread fun x hx _ => hadd x _ _ _ true (hread x hx)
    · split
      · exact hread
      · exact fun x hx => hread x (mem_of_mem_eraseP hx)
  have hfold : ∀ (incs : List Include) {d : ConfData}, (∀ x ∈ d.sections, P x) →
      ∀ x ∈ (incs.foldl (importInclude towlower) d).sections, P x := by
    intro incs
    induction incs with
    | nil => exact fun h => h
    | cons inc rest ih => exact fun h => ih (hone inc h)
  unfold importAllIncludes
  split
  · exact h
  · exact hfold _ h

theorem importAllIncludes_noTmpl (includes : List WChar → List Include) {d : ConfData}
    (h : ∀ x ∈ d.sections, x.NoTmpl) :
    ∀ x ∈ (importAllIncludes towlower includes d).sections, x.NoTmpl :=
  forall_importAllIncludes (fun _ _ _ hs => (by cases hs)) (fun _ _ hx => hx)
    (fun _ _ _ _ _ hx => hx.add rfl) includes h

theorem readFiles_tmplLast {fuel : Nat} {files : Files}
    (h : readFiles towlower fuel files = some d) : ∀ x ∈ d.sections, x.TmplLast towlower := by
  have hmerge : ∀ {a b : ConfData}, MergedAll a b → (∀ x ∈ a.sections, x.TmplLast towlower) →
      ∀ x ∈ b.sections, x.TmplLast towlower := by
    intro a b hab ha
    induction hab with
    | refl => exact ha
    | tail _ hstep ih =>
      obtain ⟨id, name, value, rfl⟩ := hstep
      exact forall_addSetting ih fun x hx _ => (ih x hx).add rfl
  have hread := @readSections_noTmpl towlower true files.templates _
    (@importAllIncludes_noTmpl towlower files.includes _
      (@readSections_noTmpl towlower false files.ini
        (emptyData files.home files.path) fun _ hx => (by cases hx)))
  have hok := Edits.dataOk (((@readSections_edits towlower false files.ini _).trans
    (importAllIncludes_edits files.includes _)).trans
      (readSections_edits true files.templates _)) (DataOk.empty files.home files.path)
  exact hmerge (mergeAllTemplates_merged h) fun x hx => (hread x hx).tmplLast (hok.settings x hx)

theorem importVirtual_tmplLast {fuel : Nat} : ∀ (secs : List Section) {d d' : ConfData},
    DataOk towlower d → (∀ x ∈ d.sections, x.TmplLast towlower) →
      importVirtual towlower fuel secs d = some (.read d') →
      ∀ x ∈ d'.sections, x.TmplLast towlower := by
  intro secs
  induction secs with
  | nil =>
    intro d d' _ h hread
    rw [← ReadResult.read.inj (Option.some.inj hread)]
    exact h
  | cons sec rest ih =>
    intro d d' hd h hread
    rw [importVirtual] at hread
    split at hread
    · split at hread
      · cases hread
      · rename_i hfind
        split at hread
        · cases hread
        rename_i hsettings
        split at hread
        · cases hread
        rename_i hupdate
        have hd2 := Edits.dataOk
          ((importSettings_edits _ hsettings).trans (confUpdate_edits hupdate)) hd
        obtain ⟨copy, tmpls, n, _, ⟨k, hok⟩, htmpls, rfl⟩ :=
          importOne_put hd hfind hsettings hupdate
        refine ih hd2 (forall_put (fun x hx _ => ?_) ?_) hread
        · refine forall_addMarked h ?_ (fun y hy => ?_) x hx
          · exact Section.NoTmpl.tmplLast (fun _ hs => (by cases hs))
              (Section.Ok.new (n := 0) d.nextId sec.name)
          · exact ⟨hy.list, hy.iter⟩
        · refine addAll_tmplLast tmpls ?_ htmpls
          refine Section.NoTmpl.tmplLast (fun s hs => ?_) (hok.foldl_remove _)
          exact ((mem_withoutTemplates hok).mp hs).2
    · exact ih hd h hread

theorem confRead_tmplLast {fuel : Nat} {files : Files} {old d : ConfData}
    (h : confRead towlower fuel files old = some (.read d)) :
    ∀ x ∈ d.sections, x.TmplLast towlower := by
  unfold confRead at h
  split at h
  · cases h
  · rename_i hread
    exact importVirtual_tmplLast old.sections ((readFiles_edits hread).dataOk (DataOk.empty _ _))
      (readFiles_tmplLast hread) h

/-! ### The index -/

structure Flags where
  noGlobal : Bool
  noExpand : Bool
  noTempls : Bool

def Flags.index (fl : Flags) (i : Nat) : Nat :=
  i + (if fl.noTempls then getNoTempls else 0) + (if fl.noExpand then getNoExpand else 0) +
    if fl.noGlobal then getNoGlobal else 0

theorem and_two_pow_eq_zero_iff (x k : Nat) : x &&& 2 ^ k = 0 ↔ x / 2 ^ k % 2 = 0 := by
  have hpos : 0 < 2 ^ k := Nat.two_pow_pos k
  rw [Nat.and_two_pow, Nat.testBit_eq_decide_div_mod_eq]
  by_cases h : x / 2 ^ k % 2 = 1
  · rw [decide_eq_true h]
    show 1 * 2 ^ k = 0 ↔ _
    omega
  · rw [decide_eq_false h]
    show 0 * 2 ^ k = 0 ↔ _
    omega

section Index

variable (fl : Flags) {i : Nat}

theorem index_noTempls (hi : i ≤ indexMask + 1) :
    fl.index i &&& getNoTempls = 0 ↔ fl.noTempls = false := by
  obtain ⟨g, e, t⟩ := fl
  have hle : i ≤ 16777216 := hi
  refine (and_two_pow_eq_zero_iff _ 28).trans ?_
  cases g <;> cases e <;> cases t <;>
    simp [Flags.index, getNoTempls, getNoExpand, getNoGlobal] <;> omega

theorem decide_noTempls (hi : i ≤ indexMask + 1) :
    decide (fl.index i &&& getNoTempls ≠ 0) = fl.noTempls := by
  have h := index_noTempls fl hi
  cases hb : fl.noTempls with
  | true => exact decide_eq_true fun h0 => by rw [h.mp h0] at hb; cases hb
  | false => exact decide_eq_false (not_not.mpr (h.mpr hb))

theorem index_noGlobal (hi : i ≤ indexMask + 1) :
    fl.index i &&& getNoGlobal = 0 ↔ fl.noGlobal = false := by
  obtain ⟨g, e, t⟩ := fl
  have hle : i ≤ 16777216 := hi
  refine (and_two_pow_eq_zero_iff _ 30).trans ?_
  cases g <;> cases e <;> cases t <;>
    simp [Flags.index, getNoTempls, getNoExpand, getNoGlobal] <;> omega

theorem index_property (hi : i ≤ indexMask + 1) :
    fl.index i &&& getProperty = 0 ↔ i ≤ indexMask := by
  obtain ⟨g, e, t⟩ := fl
  have hle : i ≤ 16777216 := hi
  refine (and_two_pow_eq_zero_iff _ 24).trans ?_
  cases g <;> cases e <;> cases t <;>
    simp [Flags.index, getNoTempls, getNoExpand, getNoGlobal, indexMask] <;> omega

theorem index_mask (hi : i ≤ indexMask + 1) :
    fl.index i &&& indexMask = if i ≤ indexMask then i else 0 := by
  obtain ⟨g, e, t⟩ := fl
  have hle : i ≤ 16777216 := hi
  refine (Nat.and_two_pow_sub_one_eq_mod _ 24).trans ?_
  cases g <;> cases e <;> cases t <;>
    simp [Flags.index, getNoTempls, getNoExpand, getNoGlobal, indexMask] <;> split <;> omega

end Index

/-! ### The loops -/

/-- The settings of an iteration that a query gets to. -/
def seenIn (skipTmpl : Bool) (l : List Setting) : List Setting :=
  if skipTmpl then l.takeWhile fun s => !s.fromTemplate else l

theorem seenIn_stop {skipTmpl : Bool} {rest : List Setting}
    (hstop : (skipTmpl && s.fromTemplate) = true) : seenIn skipTmpl (s :: rest) = [] := by
  obtain ⟨hskip, htmpl⟩ := (Bool.and_eq_true _ _).mp hstop
  rw [seenIn, if_pos hskip, takeWhile_cons_of_neg (by rw [htmpl]; decide)]

theorem seenIn_cons {skipTmpl : Bool} {rest : List Setting}
    (hstop : ¬ (skipTmpl && s.fromTemplate) = true) :
    seenIn skipTmpl (s :: rest) = s :: seenIn skipTmpl rest := by
  unfold seenIn
  by_cases hskip : skipTmpl = true
  · rw [if_pos hskip, if_pos hskip, takeWhile_cons_of_pos]
    rw [hskip, Bool.true_and] at hstop
    rw [Bool.not_eq_true _ |>.mp hstop]
    rfl
  · rw [if_neg hskip, if_neg hskip]

theorem getLoop_eq (skipTmpl : Bool) : ∀ (l : List Setting) (i : Nat),
    (getLoop skipTmpl l i).1 = (seenIn skipTmpl l)[i]? ∧
      ((seenIn skipTmpl l)[i]? = none →
        (getLoop skipTmpl l i).2 = i - (seenIn skipTmpl l).length) := by
  intro l
  induction l with
  | nil =>
    intro i
    have hnil : seenIn skipTmpl [] = [] := by
      unfold seenIn
      split <;> rfl
    rw [hnil]
    exact ⟨rfl, fun _ => rfl⟩
  | cons s rest ih =>
    intro i
    rw [getLoop]
    by_cases hstop : (skipTmpl && s.fromTemplate) = true
    · rw [if_pos hstop, seenIn_stop hstop]
      exact ⟨rfl, fun _ => rfl⟩
    rw [if_neg hstop, seenIn_cons hstop]
    cases i with
    | zero =>
      rw [if_pos rfl, getElem?_cons_zero]
      exact ⟨rfl, fun h => (by cases h)⟩
    | succ i =>
      obtain ⟨hget, hrest⟩ := ih i
      rw [if_neg (Nat.succ_ne_zero i), getElem?_cons_succ, length_cons,
        Nat.add_sub_cancel]
      refine ⟨hget, fun hnone => (hrest hnone).trans ?_⟩
      omega

variable (towlower) in
/-- The settings with a name that a query for one section gets to. -/
def seen (d : ConfData) (sectionName name : List WChar) (skipTmpl : Bool) : List Setting :=
  match findSections towlower d sectionName with
  | none => []
  | some sec =>
    if skipTmpl && sec.fromTemplate then []
    else seenIn skipTmpl (sec.settingsMap.keyIter towlower name)

theorem getHelper_eq (d : ConfData) (sectionName name : List WChar) (index : Nat)
    (skipTmpl : Bool) :
    (getHelper towlower d sectionName name index skipTmpl).1 =
        (seen towlower d sectionName name skipTmpl)[index &&& indexMask]? ∧
      ((seen towlower d sectionName name skipTmpl)[index &&& indexMask]? = none →
        (getHelper towlower d sectionName name index skipTmpl).2 =
          (index &&& indexMask) - (seen towlower d sectionName name skipTmpl).length) := by
  unfold getHelper seen
  cases findSections towlower d sectionName with
  | none => exact ⟨rfl, fun _ => rfl⟩
  | some sec =>
    dsimp only
    by_cases hstop : (skipTmpl && sec.fromTemplate) = true
    · rw [if_pos hstop, if_pos hstop]
      exact ⟨rfl, fun _ => rfl⟩
    · rw [if_neg hstop, if_neg hstop]
      exact getLoop_eq skipTmpl _ _

variable (towlower) in
/-- The settings with a name that a query for a section and the global one gets to. -/
def seenAll (d : ConfData) (sectionName name : List WChar) (fl : Flags) : List Setting :=
  seen towlower d sectionName name fl.noTempls ++
    if fl.noGlobal || sameNoCase towlower sectionName globalSettings then []
    else seen towlower d globalSettings name fl.noTempls

theorem confGet_seen (d : ConfData) {sectionName name : List WChar} (hsec : sectionName ≠ [])
    (hname : name ≠ []) (fl : Flags) {i : Nat} (hi : i ≤ indexMask) :
    confGet towlower d (some sectionName) (some name) (fl.index i) =
      ((seenAll towlower d sectionName name fl)[i]?).map .value := by
  have hskip := decide_noTempls fl (i := i) (by omega)
  have hglobal : decide (fl.index i &&& getNoGlobal = 0) = !fl.noGlobal := by
    have h := index_noGlobal fl (i := i) (by omega)
    cases hb : fl.noGlobal with
    | true => exact decide_eq_false fun h0 => by rw [h.mp h0] at hb; cases hb
    | false => exact decide_eq_true (h.mpr hb)
  have hmask : fl.index i &&& indexMask = i := by
    rw [index_mask fl (by omega), if_pos hi]
  have hvalue : (getValue towlower d (some sectionName) name (fl.index i) fl.noTempls
      (!fl.noGlobal)).1 = (seenAll towlower d sectionName name fl)[i]? := by
    obtain ⟨hown, hrest⟩ := @getHelper_eq towlower d sectionName name (fl.index i)
      fl.noTempls
    rw [hmask] at hown hrest
    unfold getValue seenAll
    dsimp only [Option.any_some]
    cases hget : (seen towlower d sectionName name fl.noTempls)[i]? with
    | some s =>
      have hlt := (List.getElem?_eq_some_iff.mp hget).1
      rw [hown, hget, Option.isNone_some, Bool.false_and, Bool.false_and, if_neg (by decide),
        List.getElem?_append_left hlt, hget]
      exact hown.trans hget
    | none =>
      have hle := List.getElem?_eq_none_iff.mp hget
      rw [hown, hget, Option.isNone_none, Bool.true_and, List.getElem?_append_right hle]
      by_cases hno : (fl.noGlobal || sameNoCase towlower sectionName globalSettings) = true
      · rw [if_pos hno, if_neg, List.getElem?_nil]
        · exact hown.trans hget
        · rw [← Bool.not_or, hno]
          decide
      · rw [if_neg hno, if_pos]
        · obtain ⟨hother, _⟩ := @getHelper_eq towlower d globalSettings name
            (i - (seen towlower d sectionName name fl.noTempls).length) fl.noTempls
          have hmask' : (i - (seen towlower d sectionName name fl.noTempls).length) &&& indexMask =
              i - (seen towlower d sectionName name fl.noTempls).length := by
            refine (Nat.and_two_pow_sub_one_eq_mod _ 24).trans (Nat.mod_eq_of_lt ?_)
            have hmax : indexMask = 16777215 := rfl
            omega
          rw [hmask'] at hother
          rw [hrest hget]
          split
          · exact hother
          · exact hother
        · rw [← Bool.not_or, Bool.not_eq_true _ |>.mp hno]
          rfl
  unfold confGet getEx
  have hsome : (some sectionName : Option (List WChar)).any (· ≠ []) = true := decide_eq_true hsec
  have hsome' : (some name : Option (List WChar)).any (· ≠ []) = true := decide_eq_true hname
  have hproperty : ¬ fl.index i &&& getProperty ≠ 0 :=
    not_not.mpr ((index_property fl (by omega)).mpr hi)
  dsimp only
  rw [hsome, hsome', Bool.not_true, Bool.false_and, if_neg (by decide), if_neg hproperty,
    if_pos rfl, hskip, hglobal]
  exact congrArg (Option.map Str.value) hvalue

theorem confGet_behind (d : ConfData) {sectionName name : List WChar} (hsec : sectionName ≠ [])
    (fl : Flags) :
    confGet towlower d (some sectionName) (some name) (fl.index (indexMask + 1)) =
      getProp towlower d sectionName name := by
  have hsome : (some sectionName : Option (List WChar)).any (· ≠ []) = true := decide_eq_true hsec
  have hproperty : fl.index (indexMask + 1) &&& getProperty ≠ 0 :=
    fun h => absurd ((index_property fl (Nat.le_refl _)).mp h) (by decide)
  have hmask : fl.index (indexMask + 1) &&& indexMask = 0 := by
    rw [index_mask fl (Nat.le_refl _), if_neg (by decide)]
  unfold confGet getEx
  dsimp only
  rw [hsome, Bool.not_true, Bool.false_and, if_neg (by decide), if_pos hproperty, if_pos hmask]

/-! ### The law -/

/-- Whether a setting of a section is from a template, or from the file of the templates. -/
def Section.fromTmpl (sec : Section) (s : Setting) : Bool := sec.fromTemplate || s.fromTemplate

variable (towlower) in
/-- The settings with a name, without regard to case, in the order in which they were added. -/
def Section.named (sec : Section) (name : List WChar) (p : Setting → Bool) : List Setting :=
  (sec.settings.filter fun s => sameNoCase towlower s.name name && p s).insertionSort
    fun s t => s.id ≤ t.id

variable (towlower) in
/-- The values of a name: first those of the section itself. -/
def Section.values (sec : Section) (name : List WChar) (noTempls : Bool) : List Setting :=
  sec.named towlower name (fun s => !sec.fromTmpl s) ++
    if noTempls then [] else sec.named towlower name sec.fromTmpl

variable (towlower) in
/-- The values that queries for a name should give. -/
def expected (d : ConfData) (sec : Section) (name : List WChar) (fl : Flags) : List Setting :=
  sec.values towlower name fl.noTempls ++
    if fl.noGlobal || sameNoCase towlower sec.name globalSettings then []
    else ((findSections towlower d globalSettings).map fun g =>
      g.values towlower name fl.noTempls).getD []

variable (towlower) in
/-- The queries with the indices 0, 1, 2 and so on give these values, and then nothing. -/
def EnumLaw (d : ConfData) (sec : Section) (name : List WChar) (fl : Flags) : Prop :=
  ∀ i ≤ (expected towlower d sec name fl).length,
    confGet towlower d (some sec.name) (some name) (fl.index i) =
      ((expected towlower d sec name fl)[i]?).map .value

variable (towlower) in
/-- The values have the hash of the name, and there are not too many for the index. -/
def Enumerable (d : ConfData) (sec : Section) (name : List WChar) (fl : Flags) : Prop :=
  (∀ s ∈ expected towlower d sec name fl, strMapHash s.name = strMapHash name) ∧
    ((expected towlower d sec name fl).length ≤ indexMask ∨
      (expected towlower d sec name fl).length = indexMask + 1 ∧
        getProp towlower d sec.name name = none)

variable {name : List WChar}

theorem mem_named {p : Setting → Bool} :
    s ∈ sec.named towlower name p ↔
      s ∈ sec.settings ∧ sameNoCase towlower s.name name = true ∧ p s = true := by
  rw [Section.named, mem_insertionSort, mem_filter, Bool.and_eq_true]

theorem mem_values {noTempls : Bool} :
    s ∈ sec.values towlower name noTempls ↔ s ∈ sec.settings ∧
      sameNoCase towlower s.name name = true ∧ (noTempls && sec.fromTmpl s) = false := by
  rw [Section.values, mem_append, mem_named]
  cases noTempls with
  | true =>
    rw [if_pos rfl, Bool.true_and, Bool.not_eq_true']
    exact or_iff_left not_mem_nil
  | false =>
    rw [if_neg (by decide), mem_named, Bool.false_and]
    cases sec.fromTmpl s <;> simp

theorem named_pairwise {n : Nat} {sec : Section} (hok : sec.Ok n) (name : List WChar)
    (p : Setting → Bool) :
    (sec.named towlower name p).Pairwise fun s t => s.id < t.id := by
  have hle : (sec.named towlower name p).Pairwise fun s t => s.id ≤ t.id :=
    pairwise_insertionSort _ _
  have hne : (sec.named towlower name p).Pairwise fun s t => s.id ≠ t.id := by
    refine pairwise_map.mp ?_
    refine ((perm_insertionSort _ _).map Setting.id).nodup_iff.mpr ?_
    exact hok.nodup.sublist (filter_sublist.map _)
  exact (hle.and hne).imp fun h => Nat.lt_of_le_of_ne h.1 h.2

theorem named_filter {n : Nat} {sec : Section} (hok : sec.Ok n) (name : List WChar)
    (p : Setting → Bool) :
    (sec.named towlower name p).filter (fun s => sameKey towlower name s.name) =
      (sec.settingsMap.keyIter towlower name).filter p := by
  have hleft := (@named_pairwise towlower _ _ hok name p).filter
    fun s => sameKey towlower name s.name
  have hright : ((sec.settingsMap.keyIter towlower name).filter p).Pairwise
      fun s t => s.id < t.id := by
    rw [StrMap.keyIter_eq]
    exact ((hok.sorted _).filter _).filter _
  have hnodup : ∀ {l : List Setting}, (l.Pairwise fun s t => s.id < t.id) → l.Nodup := fun h =>
    h.imp fun hlt heq => by rw [heq] at hlt; exact Nat.lt_irrefl _ hlt
  refine List.Perm.eq_of_pairwise (fun s t _ _ hst hts => ?_) hleft hright ?_
  · omega
  · refine (perm_ext_iff_of_nodup (hnodup hleft) (hnodup hright)).mpr fun s => ?_
    rw [mem_filter, mem_filter, mem_named, StrMap.mem_keyIter, hok.mem, sameKey_iff]
    tauto

theorem takeWhile_of_last {l : List Setting} (h : l.Pairwise fun s t =>
    s.fromTemplate = true → t.fromTemplate = true) :
    (l.takeWhile fun s => !s.fromTemplate) = l.filter fun s => !s.fromTemplate := by
  induction l with
  | nil => rfl
  | cons s rest ih =>
    obtain ⟨hs, hrest⟩ := pairwise_cons.mp h
    cases htmpl : s.fromTemplate with
    | false =>
      rw [takeWhile_cons_of_pos (by rw [htmpl]; rfl), filter_cons_of_pos
        (by rw [htmpl]; rfl), ih hrest]
    | true =>
      rw [takeWhile_cons_of_neg (by rw [htmpl]; decide), filter_cons_of_neg
        (by rw [htmpl]; decide)]
      refine (filter_eq_nil_iff.mpr fun t ht => ?_).symm
      rw [hs t ht htmpl]
      decide

theorem filter_append_of_last {l : List Setting} (h : l.Pairwise fun s t =>
    s.fromTemplate = true → t.fromTemplate = true) :
    (l.filter fun s => !s.fromTemplate) ++ l.filter (fun s => s.fromTemplate) = l := by
  induction l with
  | nil => rfl
  | cons s rest ih =>
    obtain ⟨hs, hrest⟩ := pairwise_cons.mp h
    cases htmpl : s.fromTemplate with
    | false =>
      rw [filter_cons_of_pos (by rw [htmpl]; rfl), filter_cons_of_neg
        (by rw [htmpl]; decide), cons_append, ih hrest]
    | true =>
      have hnone : (rest.filter fun s => !s.fromTemplate) = [] :=
        filter_eq_nil_iff.mpr fun t ht => by rw [hs t ht htmpl]; decide
      rw [filter_cons_of_neg (by rw [htmpl]; decide), filter_cons_of_pos
        (by rw [htmpl]), hnone, nil_append]
      refine congrArg (s :: ·) (filter_eq_self.mpr fun t ht => hs t ht htmpl)

theorem seen_eq {n : Nat} {q : List WChar}
    (hfind : findSections towlower d q = some sec) (hok : sec.Ok n)
    (hlast : sec.TmplLast towlower) (name : List WChar) (noTempls : Bool) :
    seen towlower d q name noTempls =
      (sec.values towlower name noTempls).filter fun s => sameKey towlower name s.name := by
  have hnamed := @named_filter towlower _ _ hok name
  unfold seen Section.values
  rw [hfind, filter_append, hnamed]
  dsimp only
  cases hsec : sec.fromTemplate with
  | true =>
    have htmpl : sec.fromTmpl = fun _ => true := by
      funext s
      rw [Section.fromTmpl, hsec, Bool.true_or]
    rw [htmpl, filter_eq_nil_iff.mpr fun _ _ h => (by cases h), nil_append,
      Bool.and_true]
    cases noTempls with
    | true => rw [if_pos rfl, if_pos rfl, filter_nil]
    | false =>
      rw [if_neg (by decide), if_neg (by decide), hnamed, filter_true]
      rfl
  | false =>
    have htmpl : sec.fromTmpl = fun s => s.fromTemplate := by
      funext s
      rw [Section.fromTmpl, hsec, Bool.false_or]
    rw [htmpl, Bool.and_false, if_neg (by decide)]
    cases noTempls with
    | true =>
      rw [if_pos rfl, filter_nil, append_nil, seenIn, if_pos rfl]
      exact takeWhile_of_last (hlast.iter name)
    | false =>
      rw [if_neg (by decide), hnamed, filter_append_of_last (hlast.iter name)]
      rfl

theorem mem_expected {fl : Flags} (h : s ∈ expected towlower d sec name fl) :
    sameNoCase towlower s.name name = true := by
  rcases mem_append.mp h with h | h
  · exact (mem_values.mp h).2.1
  split at h
  · cases h
  · cases hfind : findSections towlower d globalSettings with
    | none =>
      rw [hfind] at h
      cases h
    | some g =>
      rw [hfind] at h
      exact (mem_values.mp h).2.1

theorem seenAll_eq (hd : DataOk towlower d)
    (hlast : ∀ x ∈ d.sections, x.TmplLast towlower) (hsec : sec ∈ d.sections)
    (name : List WChar) (fl : Flags) :
    seenAll towlower d sec.name name fl =
      (expected towlower d sec name fl).filter fun s => sameKey towlower name s.name := by
  unfold seenAll expected
  rw [filter_append, seen_eq (hd.findSections_self hsec) (hd.settings sec hsec)
    (hlast sec hsec)]
  refine congrArg _ ?_
  split
  · rfl
  cases hfind : findSections towlower d globalSettings with
  | none =>
    unfold seen
    rw [hfind]
    rfl
  | some g =>
    have hg := findSections_mem hfind
    exact seen_eq hfind (hd.settings g hg) (hlast g hg) name fl.noTempls

theorem getProp_ne_value (d : ConfData) (sectionName name : List WChar) (s : Setting) :
    getProp towlower d sectionName name ≠ some (.value s) := by
  unfold getProp
  cases findSections towlower d sectionName with
  | none => exact fun h => (by cases h)
  | some sec =>
    dsimp only
    split
    · exact fun h => (by cases h)
    · split
      · cases sec.includePath <;> exact fun h => (by cases h)
      · exact fun h => (by cases h)

theorem map_value_inj {a b : Option Setting} (h : a.map Str.value = b.map Str.value) : a = b :=
  Option.map_injective (fun _ _ h => Str.value.inj h) h

theorem enumLaw_iff (hd : DataOk towlower d)
    (hlast : ∀ x ∈ d.sections, x.TmplLast towlower) (hsec : sec ∈ d.sections)
    (hne : sec.name ≠ []) (hname : name ≠ []) (fl : Flags) :
    EnumLaw towlower d sec name fl ↔ Enumerable towlower d sec name fl := by
  have hget : ∀ i ≤ indexMask, confGet towlower d (some sec.name) (some name) (fl.index i) =
      (((expected towlower d sec name fl).filter fun s =>
        sameKey towlower name s.name)[i]?).map .value := fun i hi => by
    rw [confGet_seen d hne hname fl hi, seenAll_eq hd hlast hsec]
  have hbehind := @confGet_behind towlower d _ name hne fl
  have hfilter : (∀ s ∈ expected towlower d sec name fl, strMapHash s.name = strMapHash name) ↔
      (expected towlower d sec name fl).filter (fun s => sameKey towlower name s.name) =
        expected towlower d sec name fl := by
    rw [filter_eq_self]
    refine forall₂_congr fun s hs => ?_
    rw [sameKey_iff, and_iff_left (mem_expected hs)]
  unfold EnumLaw Enumerable
  rw [hfilter]
  generalize expected towlower d sec name fl = l at hget hfilter ⊢
  have hlen : (l.filter fun s => sameKey towlower name s.name).length ≤ l.length :=
    length_filter_le _ _
  refine ⟨fun hlaw => ?_, fun ⟨heq, hbound⟩ i hi => ?_⟩
  · have hsame : ∀ i ≤ l.length, i ≤ indexMask →
        (l.filter fun s => sameKey towlower name s.name)[i]? = l[i]? := fun i hi hmask =>
      map_value_inj ((hget i hmask).symm.trans (hlaw i hi))
    have hbound : l.length ≤ indexMask ∨
        l.length = indexMask + 1 ∧ getProp towlower d sec.name name = none := by
      refine or_iff_not_imp_left.mpr fun hlong => ?_
      have hlast := hbehind.symm.trans (hlaw (indexMask + 1) (by omega))
      cases hnext : l[indexMask + 1]? with
      | none =>
        rw [hnext] at hlast
        have := getElem?_eq_none_iff.mp hnext
        exact ⟨by omega, hlast⟩
      | some s =>
        rw [hnext] at hlast
        exact absurd hlast (getProp_ne_value d sec.name name s)
    refine ⟨filter_sublist.eq_of_length_le ?_, hbound⟩
    by_contra hshort
    have hle : (l.filter fun s => sameKey towlower name s.name).length ≤ indexMask := by omega
    have hnone := hsame _ hlen hle
    rw [getElem?_eq_none (Nat.le_refl _)] at hnone
    have := getElem?_eq_none_iff.mp hnone.symm
    omega
  · by_cases hmask : i ≤ indexMask
    · rw [hget i hmask, heq]
    · obtain ⟨hlong, hprop⟩ := hbound.resolve_left (by omega)
      obtain rfl : i = indexMask + 1 := by omega
      rw [hbehind, hprop, getElem?_eq_none (by omega)]
      rfl

/-! ### The names -/

def Section.shown (sec : Section) (noTempls : Bool) : List Setting :=
  sec.settings.filter fun s => !(noTempls && sec.fromTmpl s)

variable (towlower) in
/-- The settings whose name none before them has, behind the settings `before`. -/
def firstNames (before : List Setting) : List Setting → List Setting
  | [] => []
  | s :: rest =>
    if before.any fun t => sameNoCase towlower t.name s.name then firstNames (before ++ [s]) rest
    else s :: firstNames (before ++ [s]) rest

variable (towlower) in
/-- The queries without a name give each name once, and with each of these names all of its
values. -/
def NamesLaw (d : ConfData) (sec : Section) (fl : Flags) : Prop :=
  ∃ names : List Setting,
    (∀ i ≤ names.length, confGet towlower d (some sec.name) none (fl.index i) =
      (names[i]?).map .settingName) ∧
    (∀ t ∈ names, t ∈ sec.shown fl.noTempls) ∧
    (names.Pairwise fun s t => sameNoCase towlower s.name t.name = false) ∧
    (∀ s ∈ sec.shown fl.noTempls, ∃ t ∈ names, sameNoCase towlower t.name s.name = true) ∧
    ∀ t ∈ names, EnumLaw towlower d sec t.name { fl with noGlobal := true }

theorem nameLoop_eq (skipTmpl : Bool) : ∀ (l before : List Setting) (i : Nat),
    nameLoop towlower skipTmpl before l i =
      (firstNames towlower before (seenIn skipTmpl l))[i]? := by
  intro l
  induction l with
  | nil =>
    intro before i
    have hnil : seenIn skipTmpl [] = [] := by
      unfold seenIn
      split <;> rfl
    rw [hnil]
    rfl
  | cons s rest ih =>
    intro before i
    rw [nameLoop]
    by_cases hstop : (skipTmpl && s.fromTemplate) = true
    · rw [if_pos hstop, seenIn_stop hstop]
      rfl
    rw [if_neg hstop, seenIn_cons hstop, firstNames]
    by_cases hbefore : (before.any fun t => sameNoCase towlower t.name s.name) = true
    · rw [if_pos hbefore, if_pos hbefore]
      exact ih _ i
    · rw [if_neg hbefore, if_neg hbefore]
      cases i with
      | zero => rw [if_pos rfl, getElem?_cons_zero]
      | succ i =>
        rw [if_neg (Nat.succ_ne_zero i), getElem?_cons_succ, Nat.add_sub_cancel]
        exact ih _ i

theorem firstNames_sublist : ∀ (l before : List Setting),
    (firstNames towlower before l).Sublist l := by
  intro l
  induction l with
  | nil => exact fun _ => List.Sublist.slnil
  | cons s rest ih =>
    intro before
    rw [firstNames]
    split
    · exact (ih _).cons s
    · exact (ih _).cons_cons s

theorem firstNames_new : ∀ (l before : List Setting), ∀ t ∈ firstNames towlower before l,
    ∀ s ∈ before, sameNoCase towlower s.name t.name = false := by
  intro l
  induction l with
  | nil => exact fun _ _ ht => (by cases ht)
  | cons u rest ih =>
    intro before t ht s hs
    rw [firstNames] at ht
    split at ht
    · exact ih _ t ht s (mem_append_left _ hs)
    · rename_i hbefore
      rcases mem_cons.mp ht with rfl | ht
      · exact Bool.eq_false_iff.mpr fun hsame => hbefore (any_eq_true.mpr ⟨s, hs, hsame⟩)
      · exact ih _ t ht s (mem_append_left _ hs)

theorem firstNames_pairwise : ∀ (l before : List Setting),
    (firstNames towlower before l).Pairwise fun s t =>
      sameNoCase towlower s.name t.name = false := by
  intro l
  induction l with
  | nil => exact fun _ => List.Pairwise.nil
  | cons s rest ih =>
    intro before
    rw [firstNames]
    split
    · exact ih _
    · refine pairwise_cons.mpr ⟨fun t ht => ?_, ih _⟩
      exact firstNames_new rest _ t ht s (mem_append_right _ (mem_singleton_self s))

theorem firstNames_cover : ∀ (l before : List Setting), ∀ s ∈ l,
    (∃ t ∈ before, sameNoCase towlower t.name s.name = true) ∨
      ∃ t ∈ firstNames towlower before l, sameNoCase towlower t.name s.name = true := by
  intro l
  induction l with
  | nil => exact fun _ _ hs => (by cases hs)
  | cons u rest ih =>
    intro before s hs
    rw [firstNames]
    by_cases hbefore : (before.any fun t => sameNoCase towlower t.name u.name) = true
    · rw [if_pos hbefore]
      obtain ⟨t, ht, hsame⟩ := any_eq_true.mp hbefore
      rcases mem_cons.mp hs with rfl | hs
      · exact Or.inl ⟨t, ht, hsame⟩
      · refine (ih (before ++ [u]) s hs).imp_left fun ⟨v, hv, hv'⟩ => ?_
        rcases mem_append.mp hv with hv | hv
        · exact ⟨v, hv, hv'⟩
        · rw [mem_singleton.mp hv] at hv'
          exact ⟨t, ht, sameNoCase_trans hsame hv'⟩
    · rw [if_neg hbefore]
      rcases mem_cons.mp hs with rfl | hs
      · exact Or.inr ⟨s, mem_cons_self, sameNoCase_refl towlower s.name⟩
      · rcases ih (before ++ [u]) s hs with ⟨v, hv, hv'⟩ | ⟨v, hv, hv'⟩
        · rcases mem_append.mp hv with hv | hv
          · exact Or.inl ⟨v, hv, hv'⟩
          · rw [mem_singleton.mp hv] at hv'
            exact Or.inr ⟨u, mem_cons_self, hv'⟩
        · exact Or.inr ⟨v, mem_cons_of_mem u hv, hv'⟩

variable (towlower) in
def Section.names (sec : Section) (noTempls : Bool) : List Setting :=
  firstNames towlower [] (sec.shown noTempls)

theorem confGet_names (hd : DataOk towlower d)
    (hlast : ∀ x ∈ d.sections, x.TmplLast towlower) (hsec : sec ∈ d.sections)
    (hne : sec.name ≠ []) (fl : Flags) {i : Nat} (hi : i ≤ indexMask + 1) :
    confGet towlower d (some sec.name) none (fl.index i) =
      if i ≤ indexMask then ((sec.names towlower fl.noTempls)[i]?).map .settingName else none := by
  have hsome : (some sec.name : Option (List WChar)).any (· ≠ []) = true := decide_eq_true hne
  have hnone : (none : Option (List WChar)).any (· ≠ []) = false := rfl
  unfold confGet getEx
  dsimp only
  rw [hsome, hnone, Bool.not_true, Bool.false_and, if_neg (by decide)]
  by_cases hmask : i ≤ indexMask
  · have hproperty : ¬ fl.index i &&& getProperty ≠ 0 :=
      not_not.mpr ((index_property fl hi).mpr hmask)
    rw [if_pos hmask, if_neg hproperty, if_neg (by decide), if_pos rfl, index_mask fl hi,
      if_pos hmask, decide_noTempls fl hi]
    refine congrArg (Option.map Str.settingName) ?_
    show getSettingName towlower d sec.name i fl.noTempls = _
    unfold getSettingName Section.names Section.shown
    rw [hd.findSections_self hsec]
    dsimp only
    by_cases hstop : (fl.noTempls && sec.fromTemplate) = true
    · obtain ⟨hno, htmpl⟩ := (Bool.and_eq_true _ _).mp hstop
      rw [if_pos hstop, filter_eq_nil_iff.mpr]
      · rfl
      · intro s _ hshown
        rw [hno, Section.fromTmpl, htmpl] at hshown
        cases hshown
    · rw [if_neg hstop, nameLoop_eq]
      refine congrArg (fun l => (firstNames towlower [] l)[i]?) ?_
      unfold seenIn
      cases hno : fl.noTempls with
      | true =>
        rw [hno, Bool.true_and, Bool.not_eq_true] at hstop
        rw [if_pos rfl, takeWhile_of_last (hlast sec hsec).list]
        refine filter_congr fun s _ => ?_
        rw [Section.fromTmpl, hstop, Bool.false_or, Bool.true_and]
      | false =>
        rw [if_neg (by decide)]
        exact (filter_eq_self.mpr fun _ _ => rfl).symm
  · rw [if_neg hmask, if_pos fun h => hmask ((index_property fl hi).mp h)]

theorem ne_nil_of_enumLaw (hne : sec.name ≠ [])
    {fl : Flags} (hs : s ∈ expected towlower d sec name fl)
    (hlaw : EnumLaw towlower d sec name fl) : name ≠ [] := by
  rintro rfl
  obtain ⟨t, rest, hlist⟩ := exists_cons_of_ne_nil (ne_nil_of_mem hs)
  have hvalue := hlaw 0 (Nat.zero_le _)
  rw [hlist, getElem?_cons_zero] at hvalue
  have hsome : (some sec.name : Option (List WChar)).any (· ≠ []) = true := decide_eq_true hne
  have hnone : (some [] : Option (List WChar)).any (· ≠ []) = false := rfl
  have hproperty : ¬ fl.index 0 &&& getProperty ≠ 0 :=
    not_not.mpr ((index_property fl (Nat.zero_le _)).mpr (Nat.zero_le _))
  unfold confGet getEx at hvalue
  dsimp only at hvalue
  rw [hsome, hnone, Bool.not_true, Bool.false_and, if_neg (by decide), if_neg hproperty,
    if_neg (by decide), if_pos rfl] at hvalue
  revert hvalue
  generalize getSettingName towlower d _ _ _ = name
  cases name <;> exact fun h => (by cases h)

theorem mem_expected_self {fl : Flags} {t : Setting} (ht : t ∈ sec.shown fl.noTempls) :
    t ∈ expected towlower d sec t.name { fl with noGlobal := true } := by
  obtain ⟨hmem, hshown⟩ := mem_filter.mp ht
  refine mem_append_left _ (mem_values.mpr ⟨hmem, sameNoCase_refl towlower t.name, ?_⟩)
  rw [Bool.not_eq_true'] at hshown
  exact hshown

/-- The names are enumerated exactly when the index is wide enough, and then the values exactly
when those of each name can be. -/
theorem namesLaw_iff (hd : DataOk towlower d)
    (hlast : ∀ x ∈ d.sections, x.TmplLast towlower) (hsec : sec ∈ d.sections)
    (hne : sec.name ≠ []) (fl : Flags) :
    NamesLaw towlower d sec fl ↔
      (sec.names towlower fl.noTempls).length ≤ indexMask + 1 ∧
      ∀ t ∈ sec.names towlower fl.noTempls,
        t.name ≠ [] ∧ Enumerable towlower d sec t.name { fl with noGlobal := true } := by
  have hget := fun {i} => confGet_names (i := i) hd hlast hsec hne fl
  have hsub : ∀ t ∈ sec.names towlower fl.noTempls, t ∈ sec.shown fl.noTempls := fun t ht =>
    (firstNames_sublist _ _).subset ht
  have hpair : (sec.names towlower fl.noTempls).Pairwise fun s t =>
      sameNoCase towlower s.name t.name = false := firstNames_pairwise _ []
  refine ⟨fun ⟨names, hgives, hshown, hdistinct, hcover, hvalues⟩ => ?_, fun ⟨hlen, hvalues⟩ => ?_⟩
  · have hsame : ∀ i ≤ names.length, i ≤ indexMask →
        names[i]? = (sec.names towlower fl.noTempls)[i]? := fun i hi hmask => by
      have heq := (hgives i hi).symm.trans (hget (by omega))
      rw [if_pos hmask] at heq
      exact Option.map_injective (fun _ _ h => Str.settingName.inj h) heq
    have hbound : names.length ≤ indexMask + 1 := by
      by_contra hlong
      have heq := (hgives (indexMask + 1) (by omega)).symm.trans (hget (Nat.le_refl _))
      rw [if_neg (by decide), Option.map_eq_none_iff, getElem?_eq_none_iff] at heq
      omega
    have hstart : names = (sec.names towlower fl.noTempls).take names.length := by
      refine ext_getElem? fun i => ?_
      rw [getElem?_take]
      split
      · exact hsame i (by omega) (by omega)
      · exact getElem?_eq_none (by omega)
    -- behind the names that are given there is none, as its name would be new
    have hall : names = sec.names towlower fl.noTempls := by
      refine hstart.trans (take_of_length_le (Nat.le_of_not_lt fun hlt => ?_))
      have hnew := getElem_mem hlt
      obtain ⟨t, ht, hsame⟩ := hcover _ (hsub _ hnew)
      rw [hstart] at ht
      obtain ⟨i, hi, rfl⟩ := mem_take_iff_getElem.mp ht
      have hdiff := pairwise_iff_getElem.mp hpair i names.length (Nat.lt_of_lt_of_le hi
        (Nat.min_le_right _ _)) hlt (Nat.lt_of_lt_of_le hi (Nat.min_le_left _ _))
      rw [hdiff] at hsame
      cases hsame
    rw [← hall]
    refine ⟨hbound, fun t ht => ?_⟩
    have htname := ne_nil_of_enumLaw hne (mem_expected_self (hshown t ht)) (hvalues t ht)
    exact ⟨htname, (enumLaw_iff hd hlast hsec hne htname _).mp (hvalues t ht)⟩
  · refine ⟨sec.names towlower fl.noTempls, fun i hi => ?_, hsub, hpair, fun s hs => ?_, ?_⟩
    · rw [hget (Nat.le_trans hi hlen)]
      split
      · rfl
      · rw [getElem?_eq_none (by omega)]
        rfl
    · refine (firstNames_cover _ [] s hs).resolve_left fun ⟨t, ht, _⟩ => ?_
      cases ht
    · exact fun t ht =>
        (enumLaw_iff hd hlast hsec hne (hvalues t ht).1 _).mpr (hvalues t ht).2

/-- **The enumeration law.**  After a `Conf_Read` the queries for a name give the values of the
section and then those of the global section exactly when all of these have the hash of the
name, and the queries for names give each name once, with its values, exactly when the names
that match have one hash. -/
theorem enumeration_iff {fuel : Nat} {files : Files} {old d : ConfData}
    (hread : confRead towlower fuel files old = some (.read d)) {sec : Section}
    (hsec : sec ∈ d.sections) (hne : sec.name ≠ []) (fl : Flags) :
    (∀ name, name ≠ [] →
      (EnumLaw towlower d sec name fl ↔ Enumerable towlower d sec name fl)) ∧
    (NamesLaw towlower d sec fl ↔
      (sec.names towlower fl.noTempls).length ≤ indexMask + 1 ∧
      ∀ t ∈ sec.names towlower fl.noTempls,
        t.name ≠ [] ∧ Enumerable towlower d sec t.name { fl with noGlobal := true }) := by
  have hd := Edits.dataOk (confRead_edits hread) (DataOk.empty files.home files.path)
  have hlast := confRead_tmplLast hread
  exact ⟨fun name hname => enumLaw_iff hd hlast hsec hne hname fl,
    namesLaw_iff hd hlast hsec hne fl⟩

/-! ### Two spellings -/

/-- The files with the section `Box`, where a name has two values. -/
def twoFiles (name name' : List WChar) : Files where
  home := 1
  path := none
  ini := [⟨wide ['B', 'o', 'x'], [(name, wide ['1']), (name', wide ['2'])]⟩]
  templates := []
  includes := fun _ => []

def twoValues (name name' : List WChar) : Section :=
  ((newSection 0 (wide ['B', 'o', 'x'])).add ⟨1, name, wide ['1'], false⟩ false).add
    ⟨2, name', wide ['2'], false⟩ false

def twoData (name name' : List WChar) : ConfData :=
  addSetting (addSetting (addMarked (emptyData 1 none) (wide ['B', 'o', 'x']) false
    (Section.markTemplate false)) 0 name (wide ['1']) false false) 0 name' (wide ['2']) false false

theorem sameSpelling_read : confRead asciiLower 1
    (twoFiles (wide ['F', 'o', 'o']) (wide ['F', 'o', 'o'])) (emptyData 1 none) =
      some (.read (twoData (wide ['F', 'o', 'o']) (wide ['F', 'o', 'o']))) := rfl

theorem otherSpelling_read : confRead asciiLower 1
    (twoFiles (wide ['F', 'o', 'o']) (wide ['f', 'o', 'o'])) (emptyData 1 none) =
      some (.read (twoData (wide ['F', 'o', 'o']) (wide ['f', 'o', 'o']))) := rfl

theorem twoValues_mem (name name' : List WChar) :
    twoValues name name' ∈ (twoData name name').sections := mem_cons_self

/-- `Foo=1` and `Foo=2` are enumerated. -/
theorem enumeration_foo :
    EnumLaw asciiLower (twoData (wide ['F', 'o', 'o']) (wide ['F', 'o', 'o']))
      (twoValues (wide ['F', 'o', 'o']) (wide ['F', 'o', 'o'])) (wide ['F', 'o', 'o'])
      ⟨false, false, false⟩ := by
  refine ((enumeration_iff sameSpelling_read (twoValues_mem _ _) (by decide) _).1 _
    (by decide)).mpr ⟨?_, Or.inl ?_⟩
  · decide
  · decide

/-- With `Foo=1` and `foo=2` the queries for `Foo` end after the first value. -/
theorem enumeration_gap :
    ¬ ∀ (fuel : Nat) (files : Files) (old d : ConfData),
      confRead asciiLower fuel files old = some (.read d) → ∀ sec ∈ d.sections,
        ∀ name, name ≠ [] → ∀ fl, EnumLaw asciiLower d sec name fl := by
  intro h
  have hlaw := h 1 _ _ _ otherSpelling_read _ (twoValues_mem _ _) (wide ['F', 'o', 'o'])
    (by decide) ⟨false, false, false⟩ 1 (by decide)
  revert hlaw
  decide

end Sandboxie.Conf
