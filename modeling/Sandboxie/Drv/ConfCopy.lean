import Sandboxie.Drv.ConfShare

/-!
# The order of values over reloads

`Conf_Read` goes over the list of a virtual section and appends each of its values to the new
section, where `Conf_Add_Setting` puts it in front of the list and at the end of its chain.  So
queries give after a reload what the list had before it, and the list is turned around: after the
next reload they give that.
-/

namespace Sandboxie.Conf

open Text Relation List

variable {towlower : WChar → WChar}

/-! ### The two orders -/

variable (towlower) in
/-- The values of a name that are not from templates, in the order of the list. -/
def Section.listValues (sec : Section) (n : List WChar) : List (List WChar) :=
  (sec.users towlower n).map Setting.value

variable (towlower) in
/-- The values of a name that queries give before those from templates. -/
def Section.ownValues (sec : Section) (n : List WChar) : List (List WChar) :=
  ((sec.settingsMap.keyIter towlower n).takeWhile Setting.user).map Setting.value

variable (towlower) in
/-- The values of a name that queries give behind them: those from the first template on, and
those of the global section. -/
def Section.restValues (sec : Section) (d : ConfData) (n : List WChar) (fl : Flags) :
    List (List WChar) :=
  ((if fl.noTempls then []
    else (sec.settingsMap.keyIter towlower n).dropWhile Setting.user) ++
    if fl.noGlobal || sameNoCase towlower sec.name globalSettings then []
    else seen towlower d globalSettings n fl.noTempls).map Setting.value

def Str.text : Str → List WChar
  | .value s => s.value
  | .settingName s => s.name
  | .sectionName _ name => name
  | .includePath _ path => path
  | .confPath path => path
  | .letter c => wide [c]

variable (towlower) in
/-- Queries for a name give the same with the indices 0, 1, 2 and so on. -/
def SameQueries (d d' : ConfData) (q n : List WChar) (fl : Flags) : Prop :=
  ∀ i ≤ indexMask, (confGet towlower d' (some q) (some n) (fl.index i)).map Str.text =
    (confGet towlower d (some q) (some n) (fl.index i)).map Str.text

def SameUpTo (l l' : List (List WChar)) : Prop := ∀ i ≤ indexMask, l'[i]? = l[i]?

variable {d : ConfData} {sec : Section}

theorem seenAll_values (hd : DataOk towlower d) (hsec : sec ∈ d.sections)
    (hfile : sec.fromTemplate = false) (n : List WChar) (fl : Flags) :
    (seenAll towlower d sec.name n fl).map Setting.value =
      sec.ownValues towlower n ++ sec.restValues towlower d n fl := by
  have hown : seen towlower d sec.name n fl.noTempls =
      (sec.settingsMap.keyIter towlower n).takeWhile Setting.user ++
        if fl.noTempls then []
        else (sec.settingsMap.keyIter towlower n).dropWhile Setting.user := by
    unfold seen
    rw [hd.findSections_self hsec]
    show (if fl.noTempls && sec.fromTemplate then [] else seenIn fl.noTempls _) = _
    rw [hfile, Bool.and_false, if_neg (by decide), seenIn]
    split
    · rw [append_nil]
      rfl
    · exact (takeWhile_append_dropWhile).symm
  rw [seenAll, hown, Section.ownValues, Section.restValues, append_assoc, map_append]

theorem sameQueries_iff {d' : ConfData} {q n : List WChar} (hq : q ≠ []) (hn : n ≠ [])
    (fl : Flags) : SameQueries towlower d d' q n fl ↔
      SameUpTo ((seenAll towlower d q n fl).map Setting.value)
        ((seenAll towlower d' q n fl).map Setting.value) := by
  refine forall_congr' fun i => imp_congr_right fun hi => ?_
  rw [confGet_seen d' hq hn fl hi, confGet_seen d hq hn fl hi, getElem?_map,
    getElem?_map, Option.map_map, Option.map_map]
  rfl

/-! ### A copy -/

theorem keyIter_addAll (n : List WChar) : ∀ (ss : List Setting) (sec : Section),
    (sec.addAll ss).settingsMap.keyIter towlower n =
      sec.settingsMap.keyIter towlower n ++ ss.filter fun s => sameKey towlower n s.name := by
  intro ss
  induction ss with
  | nil => exact fun sec => (append_nil _).symm
  | cons s ss ih =>
    intro sec
    show ((sec.add s false).addAll ss).settingsMap.keyIter towlower n = _
    rw [ih, keyIter_add, append_assoc, filter_cons]
    split <;> rfl

theorem filter_user_templates {ss : List Setting} (h : ∀ s ∈ ss, s.fromTemplate = true) :
    ss.filter Setting.user = [] := by
  refine filter_eq_nil_iff.mpr fun s hs => ?_
  rw [Setting.user, h s hs]
  decide

theorem keyIter_withoutTemplates {k : Nat} (hok : sec.Ok k) (n : List WChar) :
    sec.withoutTemplates.settingsMap.keyIter towlower n =
      (sec.settingsMap.keyIter towlower n).filter Setting.user := by
  have hremoved : ∀ (ss : List Setting) (sec : Section), (∀ s ∈ ss, s.user = false) →
      ((ss.foldl Section.remove sec).settingsMap.keyIter towlower n).filter Setting.user =
        (sec.settingsMap.keyIter towlower n).filter Setting.user := by
    intro ss
    induction ss with
    | nil => exact fun _ _ => rfl
    | cons s ss ih =>
      intro sec hss
      rw [foldl_cons, ih _ fun t ht => hss t (mem_cons_of_mem s ht), keyIter_remove]
      exact filter_erase_of_neg (hss s mem_cons_self) _
  rw [← hremoved _ sec fun s hs => ?_]
  · refine (filter_eq_self.mpr fun s hs => ?_).symm
    have hmem := ((hok.foldl_remove _).mem s).mp (StrMap.mem_keyIter.mp hs).1
    rw [Setting.user, ((mem_withoutTemplates hok).mp hmem).2]
    rfl
  · rw [Setting.user, (mem_filter.mp hs).2]
    rfl

theorem Copied.orders {sec' : Section} {ss : List Setting} (h : Copied sec ss sec')
    (n : List WChar) :
    (((sec'.settingsMap.keyIter towlower n).filter Setting.user).map Setting.value =
        ((sec.settingsMap.keyIter towlower n).filter Setting.user).map Setting.value ++
          (ss.filter fun s => sameKey towlower n s.name).map Setting.value) ∧
      sec'.listValues towlower n =
        ((ss.filter fun s => sameKey towlower n s.name).map Setting.value).reverse ++
          sec.listValues towlower n := by
  induction h with
  | refl => exact ⟨(append_nil _).symm, rfl⟩
  | @cons sec sec' s rest k tmpls htmpls _ ih =>
    obtain ⟨hchain, hlist⟩ := ih
    have huser : (⟨k, s.name, s.value, false⟩ : Setting).user = true := rfl
    refine ⟨?_, ?_⟩
    · rw [hchain, keyIter_addAll, filter_append, keyIter_add, filter_append,
        filter_user_templates (fun t ht => htmpls t (mem_filter.mp ht).1), append_nil,
        filter_cons]
      by_cases hkey : sameKey towlower n s.name = true
      · rw [if_pos hkey, if_pos hkey, filter_cons_of_pos huser, filter_nil,
          map_append, append_assoc]
        rfl
      · rw [if_neg hkey, if_neg hkey, filter_nil, append_nil]
    · rw [hlist, Section.listValues, users_addAll n tmpls _ htmpls, filter_cons]
      by_cases hkey : sameKey towlower n s.name = true
      · have hadd : (sec.add ⟨k, s.name, s.value, false⟩ true).users towlower n =
            ⟨k, s.name, s.value, false⟩ :: sec.users towlower n :=
          filter_cons_of_pos hkey
        rw [if_pos hkey, hadd, map_cons, map_cons, reverse_cons, append_assoc]
        rfl
      · have hadd : (sec.add ⟨k, s.name, s.value, false⟩ true).users towlower n =
            sec.users towlower n :=
          users_add (Bool.and_eq_false_imp.mpr fun _ => Bool.not_eq_true _ |>.mp hkey)
        rw [if_neg hkey, hadd]
        rfl

/-- **A copy** gives the values of the list, and its list has them the other way round. -/
theorem Section.CopyOf.orders {sec' : Section} (h : sec'.CopyOf sec) (n : List WChar) :
    sec'.ownValues towlower n = sec.listValues towlower n ∧
      sec'.listValues towlower n = (sec.listValues towlower n).reverse := by
  obtain ⟨id, copy, tmpls, hcopied, ⟨k, hok⟩, htmpls, rfl⟩ := h
  obtain ⟨hchain, hlist⟩ := @Copied.orders towlower _ _ _ hcopied n
  have hnew : (newSection id sec.name).markVirtual.settingsMap.keyIter towlower n = [] :=
    (Section.InOrder.new id sec.name).order n
  have hvalues : ((sec.settings.filter fun s => !s.fromTemplate).filter fun s =>
      sameKey towlower n s.name).map Setting.value = sec.listValues towlower n := by
    rw [filter_filter, Section.listValues, Section.users]
    exact congrArg (List.map Setting.value) (filter_congr fun s _ => Bool.and_comm _ _)
  rw [hvalues] at hchain hlist
  refine ⟨?_, ?_⟩
  · have huser : ∀ s ∈ (copy.settingsMap.keyIter towlower n).filter Setting.user,
        s.user = true := fun s hs => (mem_filter.mp hs).2
    have htemplate : (tmpls.filter fun s => sameKey towlower n s.name).takeWhile Setting.user =
        [] := by
      cases hfilter : tmpls.filter fun s => sameKey towlower n s.name with
      | nil => rfl
      | cons t rest =>
        have ht := (mem_filter.mp (hfilter ▸ mem_cons_self)).1
        rw [takeWhile_cons_of_neg]
        rw [Setting.user, htmpls t ht]
        decide
    rw [Section.ownValues, keyIter_addAll, keyIter_withoutTemplates hok,
      takeWhile_append_of_pos huser, htemplate, append_nil, hchain, hnew]
    rfl
  · rw [Section.listValues, users_addAll n tmpls _ htmpls, users_withoutTemplates]
    exact hlist.trans (append_nil _)

/-! ### Virtual sections are not from the templates -/

def ConfData.Own (d : ConfData) : Prop :=
  ∀ sec ∈ d.sections, sec.isVirtual = true → sec.fromTemplate = false

theorem ConfData.Own.put {old : Section} {n : Nat} (h : d.Own)
    (hold : old ∈ d.sections) (hsame : sec.Same old) : (d.put sec n).Own :=
  forall_put (fun x hx _ => h x hx) fun hvirtual => by
    rw [hsame.isVirtual] at hvirtual
    rw [hsame.fromTemplate]
    exact h old hold hvirtual

theorem ConfData.Own.addVirtual (hd : DataOk towlower d) (h : d.Own)
    (q : List WChar) : (addMarked d q true Section.markVirtual).Own := by
  intro x hx
  obtain ⟨y, hy, rfl⟩ := mem_modify.mp hx
  rcases mem_addSections.mp hy with hy | rfl
  · rw [if_neg fun hid => Nat.lt_irrefl _ (hid ▸ hd.lt y hy)]
    exact h y hy
  · split <;> exact fun _ => rfl

theorem confUpdate_own {fuel : Nat} {d' : ConfData} {q : List WChar}
    {name value : Option (List WChar)} {mode : Mode} (hd : DataOk towlower d) (hown : d.Own)
    (h : confUpdate towlower fuel d q name value mode = some d') : d'.Own := by
  have hfound : ∀ {d : ConfData} {s : Section}, DataOk towlower d → d.Own →
      findSections towlower d q = some s →
      confUpdate towlower fuel d q name value mode = some d' → d'.Own := by
    intro d s hd hown hfind h
    by_cases hmode : mode = .removeSection
    · rw [confUpdate, hfind] at h
      dsimp only at h
      rw [updateSection, if_pos hmode] at h
      rw [← Option.some.inj h]
      exact fun x hx => hown x (mem_of_mem_eraseP hx)
    · obtain ⟨ss, k, _, rfl⟩ := confUpdate_put hd hfind hmode h
      exact hown.put (findSections_mem hfind) ((addAll_same _ _).trans (changed_same _ _ _ _ _))
  rcases confUpdate_cases h with ⟨sec, hfind, _⟩ | ⟨_, _, rfl⟩ | ⟨hfind, hvalue, hsection, _⟩
  · exact hfound hd hown hfind h
  · exact hown
  · rw [confUpdate_addMarked hd hfind hvalue hsection] at h
    exact hfound ((addMarked_edits true marks_virtual hfind).dataOk hd) (hown.addVirtual hd q)
      (findSections_addMarked hd true marks_virtual hfind) h

theorem confRead_sections {fuel : Nat} {files : Files} {old : ConfData}
    (h : confRead towlower fuel files old = some (.read d)) :
    (∀ sec ∈ old.sections, sec.isVirtual = true → ∃ sec' ∈ d.sections, sec'.CopyOf sec) ∧
      ∀ sec' ∈ d.sections, sec'.isVirtual = false ∨ ∃ sec, sec'.CopyOf sec := by
  unfold confRead at h
  split at h
  · cases h
  · rename_i hfiles
    have hok := (readFiles_edits hfiles).dataOk (DataOk.empty files.home files.path)
    obtain ⟨_, hcopied, honly⟩ := importVirtual_copyOf old.sections hok h
    refine ⟨hcopied, fun sec' hsec' => ?_⟩
    rcases honly sec' hsec' with hsec | ⟨sec, _, _, hcopy⟩
    · exact Or.inl (readFiles_file hfiles sec' hsec)
    · exact Or.inr ⟨sec, hcopy⟩

theorem Reachable.own (h : Reachable towlower d) : d.Own := by
  induction h with
  | init home path => exact fun _ hsec => (by cases hsec)
  | read _ hread _ =>
    intro sec hsec hvirtual
    rcases (confRead_sections hread).2 sec hsec with hfile | ⟨_, hcopy⟩
    · rw [hfile] at hvirtual
      cases hvirtual
    · obtain ⟨_, hsame⟩ := hcopy.same
      exact hsame.fromTemplate
  | update h hupdate ih => exact confUpdate_own h.dataOk ih hupdate

/-! ### Reloads -/

variable (towlower) in
def Reloads : ConfData → List (Nat × Files) → ConfData → Prop :=
  Run (fun d e d' => confRead towlower e.1 e.2 d = some (.read d')) fun _ _ => True

variable (towlower) in
/-- The values of a name that queries give after `k` reloads. -/
def Section.valuesAfter (sec : Section) (n : List WChar) (k : Nat) : List (List WChar) :=
  if k = 0 then sec.ownValues towlower n
  else if k % 2 = 1 then sec.listValues towlower n else (sec.listValues towlower n).reverse

theorem Reloads.section {d' : ConfData} {es : List (Nat × Files)}
    (h : Reloads towlower d es d') (hd : Reachable towlower d) (hsec : sec ∈ d.sections)
    (hvirtual : sec.isVirtual = true) (n : List WChar) :
    Reachable towlower d' ∧ ∃ sec' ∈ d'.sections, sec'.name = sec.name ∧
      sec'.isVirtual = true ∧
      sec'.ownValues towlower n = sec.valuesAfter towlower n es.length := by
  have hrun : ∀ {d d' : ConfData} {es : List (Nat × Files)}, Reloads towlower d es d' →
      Reachable towlower d → ∀ {sec : Section}, sec ∈ d.sections → sec.isVirtual = true →
      Reachable towlower d' ∧ ∃ sec' ∈ d'.sections, sec'.name = sec.name ∧
        sec'.isVirtual = true ∧
        sec'.ownValues towlower n = sec.valuesAfter towlower n es.length ∧
        sec'.listValues towlower n =
          if es.length % 2 = 1 then (sec.listValues towlower n).reverse
          else sec.listValues towlower n := by
    intro d d' es h
    induction h with
    | nil d => exact fun hd sec hsec hvirtual => ⟨hd, sec, hsec, rfl, hvirtual, rfl, rfl⟩
    | @cons d d1 d' e es hstep _ rest ih =>
      intro hd sec hsec hvirtual
      obtain ⟨sec1, hsec1, hcopy⟩ := (confRead_sections hstep).1 sec hsec hvirtual
      obtain ⟨_, hsame⟩ := hcopy.same
      obtain ⟨hown1, hlist1⟩ := @Section.CopyOf.orders towlower _ _ hcopy n
      obtain ⟨hd', sec', hsec', hname', hvirtual', hown', hlist'⟩ :=
        ih (hd.read hstep) hsec1 hsame.isVirtual
      refine ⟨hd', sec', hsec', hname'.trans hsame.name, hvirtual', ?_, ?_⟩
      · rw [hown', Section.valuesAfter, Section.valuesAfter, hown1, hlist1, length_cons,
          if_neg (Nat.succ_ne_zero _), reverse_reverse]
        by_cases hodd : es.length % 2 = 1
        · have hne : es.length ≠ 0 := by omega
          have heven : ¬(es.length + 1) % 2 = 1 := by omega
          rw [if_neg hne, if_pos hodd, if_neg heven]
        · have hodd' : (es.length + 1) % 2 = 1 := by omega
          rw [if_neg hodd, if_pos hodd', ite_self]
      · rw [hlist', hlist1, length_cons, reverse_reverse]
        by_cases hodd : es.length % 2 = 1
        · have heven : ¬(es.length + 1) % 2 = 1 := by omega
          rw [if_pos hodd, if_neg heven]
        · have hodd' : (es.length + 1) % 2 = 1 := by omega
          rw [if_neg hodd, if_pos hodd']
  obtain ⟨hd', sec', hsec', hname, hvirtual', hown, _⟩ := hrun h hd hsec hvirtual
  exact ⟨hd', sec', hsec', hname, hvirtual', hown⟩

theorem restValues_own (sec : Section) (d : ConfData) (n : List WChar) {fl : Flags}
    (h : fl.noTempls = true ∧ fl.noGlobal = true) : sec.restValues towlower d n fl = [] := by
  rw [Section.restValues, if_pos h.1, h.2, Bool.true_or, if_pos rfl]
  rfl

end Sandboxie.Conf
