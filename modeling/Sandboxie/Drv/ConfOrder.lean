import Sandboxie.Drv.ConfUpdate

/-!
# The order of the list and of the map

An update puts a new value in front of the list of its section and at the end of the chain
of the map.  While no other value of the name is there that is the same place, and then the
iteration over a name gives what the list has of it, in the same order, with the values from
templates last (`Section.InOrder`).

Between the copy of a virtual section and the merge of its templates only the values that are
not from templates are in order (`Section.UserOrder`); removing the others puts the section in
order again.
-/

namespace Sandboxie.Conf

open Text Relation List

variable {towlower : WChar → WChar}

variable (towlower) in
def Section.listed (sec : Section) (q : List WChar) : List Setting :=
  sec.settings.filter fun s => sameKey towlower q s.name

def Setting.user (s : Setting) : Bool := !s.fromTemplate

variable (towlower) in
/-- The iteration over a name gives what the list has, with the values from templates
last. -/
structure Section.InOrder (sec : Section) : Prop where
  order : ∀ q, sec.settingsMap.keyIter towlower q = sec.listed towlower q
  last : ∀ q, (sec.listed towlower q).Pairwise fun s t =>
    s.fromTemplate = true → t.fromTemplate = true

variable (towlower) in
/-- The iteration over a name gives what the list has, without the values from templates. -/
def Section.UserOrder (sec : Section) : Prop :=
  ∀ q, (sec.settingsMap.keyIter towlower q).filter Setting.user =
    (sec.listed towlower q).filter Setting.user

/-! ### A section -/

theorem keyIter_add (sec : Section) (s : Setting) (insert : Bool) (q : List WChar) :
    (sec.add s insert).settingsMap.keyIter towlower q =
      sec.settingsMap.keyIter towlower q ++ if sameKey towlower q s.name then [s] else [] := by
  rw [StrMap.keyIter_eq, StrMap.keyIter_eq, StrMap.nodesFor]
  show List.filter _ ((sec.settingsMap.mapAppend s).withHash _) = _
  rw [StrMap.mapAppend, ChainMap.withHash_add]
  by_cases hhash : nodeHash Setting.name s = (strMapHash q).toNat
  · have hkey : sameKey towlower q s.name = sameNoCase towlower s.name q := by
      rw [sameKey, beq_iff_eq.mpr (UInt32.toNat_inj.mp hhash), Bool.true_and]
    rw [if_pos hhash, if_pos rfl, filter_append, hkey]
    congr 1
    by_cases hq : sameNoCase towlower s.name q = true
    · rw [if_pos hq]
      exact filter_cons_of_pos hq
    · rw [if_neg hq]
      exact filter_cons_of_neg hq
  · rw [if_neg hhash, sameKey, beq_eq_false_iff_ne.mpr fun h => hhash (congrArg UInt32.toNat h),
      Bool.false_and, if_neg (by decide), append_nil]
    rfl

theorem listed_add_first (sec : Section) (s : Setting) (q : List WChar) :
    (sec.add s true).listed towlower q =
      (if sameKey towlower q s.name then [s] else []) ++ sec.listed towlower q := by
  unfold Section.listed Section.add
  rw [if_pos rfl, ← singleton_append, filter_append]
  congr 1
  by_cases hq : sameKey towlower q s.name = true
  · rw [if_pos hq]
    exact filter_cons_of_pos hq
  · rw [if_neg hq]
    exact filter_cons_of_neg hq

theorem listed_add_last (sec : Section) (s : Setting) (q : List WChar) :
    (sec.add s false).listed towlower q =
      sec.listed towlower q ++ if sameKey towlower q s.name then [s] else [] := by
  unfold Section.listed Section.add
  rw [if_neg (by decide), filter_append]
  congr 1
  by_cases hq : sameKey towlower q s.name = true
  · rw [if_pos hq]
    exact filter_cons_of_pos hq
  · rw [if_neg hq]
    exact filter_cons_of_neg hq

theorem keyIter_remove (sec : Section) (s : Setting) (q : List WChar) :
    (sec.remove s).settingsMap.keyIter towlower q =
      (sec.settingsMap.keyIter towlower q).erase s := by
  rw [StrMap.keyIter_eq, StrMap.keyIter_eq, StrMap.nodesFor]
  show List.filter _ ((sec.settingsMap.erase s).withHash _) = _
  rw [ChainMap.withHash_erase, erase_filter]
  split
  · rfl
  · rename_i hhash
    have hnot : s ∉ sec.settingsMap.nodesFor q :=
      fun hmem => hhash (ChainMap.mem_withHash.mp hmem).2
    rw [erase_of_not_mem hnot]
    rfl

theorem listed_remove (sec : Section) (s : Setting) (q : List WChar) :
    (sec.remove s).listed towlower q = (sec.listed towlower q).erase s := by
  rw [Section.listed, Section.listed, erase_filter]
  rfl

namespace Section.InOrder

variable {sec : Section}

theorem new (id : Nat) (name : List WChar) : (newSection id name).InOrder towlower := by
  have hkey : ∀ q, (newSection id name).settingsMap.keyIter towlower q = [] := by
    intro q
    rw [StrMap.keyIter_eq, StrMap.nodesFor]
    show List.filter _ ((newMap : StrMap Setting.name).withHash _) = []
    rw [newMap, ChainMap.withHash_resize _ (by decide)]
    rfl
  exact ⟨hkey, fun _ => List.Pairwise.nil⟩

theorem mark {sec' : Section} (h : sec.InOrder towlower) (hs : sec'.settings = sec.settings)
    (hm : sec'.settingsMap = sec.settingsMap) : sec'.InOrder towlower := by
  have hlisted : ∀ q, sec'.listed towlower q = sec.listed towlower q := fun q => by
    rw [Section.listed, hs]
    rfl
  refine ⟨fun q => ?_, fun q => ?_⟩
  · rw [hm, hlisted]
    exact h.order q
  · rw [hlisted]
    exact h.last q

theorem add_last (h : sec.InOrder towlower) {s : Setting}
    (hs : s.fromTemplate = true ∨ ∀ t ∈ sec.settings, t.fromTemplate = false) :
    (sec.add s false).InOrder towlower := by
  refine ⟨fun q => ?_, fun q => ?_⟩
  · rw [keyIter_add, listed_add_last, h.order]
  rw [listed_add_last]
  refine pairwise_append.mpr ⟨h.last q, ?_, fun t ht u hu htmpl => ?_⟩
  · split
    · exact pairwise_singleton _ _
    · exact List.Pairwise.nil
  · split at hu
    · rw [mem_singleton.mp hu]
      rcases hs with hs | hs
      · exact hs
      · rw [hs t (mem_filter.mp ht).1] at htmpl
        cases htmpl
    · cases hu

theorem add_first (h : sec.InOrder towlower) {s : Setting}
    (hs : ∀ t ∈ sec.settings, sameKey towlower s.name t.name = false) :
    (sec.add s true).InOrder towlower := by
  have hnone : ∀ q, sameKey towlower q s.name = true → sec.listed towlower q = [] := by
    intro q hq
    refine filter_eq_nil_iff.mpr fun t ht htq => ?_
    have hkey := sameKey_trans hq htq
    rw [hs t ht] at hkey
    cases hkey
  have hlisted : ∀ q, (sec.add s true).listed towlower q =
      sec.listed towlower q ++ if sameKey towlower q s.name then [s] else [] := by
    intro q
    rw [listed_add_first]
    by_cases hq : sameKey towlower q s.name = true
    · rw [if_pos hq, hnone q hq, append_nil, nil_append]
    · rw [if_neg hq, append_nil, nil_append]
  refine ⟨fun q => ?_, fun q => ?_⟩
  · rw [keyIter_add, hlisted, h.order]
  · rw [hlisted]
    by_cases hq : sameKey towlower q s.name = true
    · rw [if_pos hq, hnone q hq]
      exact pairwise_singleton _ _
    · rw [if_neg hq, append_nil]
      exact h.last q

theorem remove (h : sec.InOrder towlower) (s : Setting) : (sec.remove s).InOrder towlower := by
  refine ⟨fun q => ?_, fun q => ?_⟩
  · rw [keyIter_remove, listed_remove, h.order]
  · rw [listed_remove]
    exact (h.last q).sublist erase_sublist

theorem foldl_remove (ss : List Setting) : ∀ {sec : Section}, sec.InOrder towlower →
    (ss.foldl Section.remove sec).InOrder towlower := by
  induction ss with
  | nil => exact fun h => h
  | cons s ss ih => exact fun h => ih (h.remove s)

theorem userOrder (h : sec.InOrder towlower) : sec.UserOrder towlower := fun q => by
  rw [h.order]

end Section.InOrder

namespace Section.UserOrder

variable {sec : Section}

theorem add_last (h : sec.UserOrder towlower) (s : Setting) :
    (sec.add s false).UserOrder towlower := by
  intro q
  rw [keyIter_add, listed_add_last, filter_append, filter_append, h q]

theorem add_first (h : sec.UserOrder towlower) {s : Setting}
    (hs : ∀ t ∈ sec.settings, t.fromTemplate = false → sameKey towlower s.name t.name = false) :
    (sec.add s true).UserOrder towlower := by
  intro q
  rw [keyIter_add, listed_add_first, filter_append, filter_append, h q]
  by_cases hq : sameKey towlower q s.name = true
  · have hnone : (sec.listed towlower q).filter Setting.user = [] := by
      refine filter_eq_nil_iff.mpr fun t ht huser => ?_
      obtain ⟨ht, htq⟩ := mem_filter.mp ht
      have hfalse := hs t ht (by rw [Setting.user, Bool.not_eq_true'] at huser; exact huser)
      rw [sameKey_trans hq htq] at hfalse
      cases hfalse
    rw [hnone, nil_append, append_nil]
  · rw [if_neg hq, filter_nil, nil_append, append_nil]

theorem remove (h : sec.UserOrder towlower) (s : Setting) : (sec.remove s).UserOrder towlower := by
  intro q
  rw [keyIter_remove, listed_remove, ← erase_filter, ← erase_filter, h q]

theorem foldl_remove (ss : List Setting) : ∀ {sec : Section}, sec.UserOrder towlower →
    (ss.foldl Section.remove sec).UserOrder towlower := by
  induction ss with
  | nil => exact fun h => h
  | cons s ss ih => exact fun h => ih (h.remove s)

theorem inOrder {n : Nat} (h : sec.UserOrder towlower) (hok : sec.Ok n)
    (hnone : ∀ s ∈ sec.settings, s.fromTemplate = false) : sec.InOrder towlower := by
  have huser : ∀ s ∈ sec.settings, s.user = true := fun s hs => by
    rw [Setting.user, hnone s hs, Bool.not_false]
  refine ⟨fun q => ?_, fun q => ?_⟩
  · have hq := h q
    have hkeyed : (sec.settingsMap.keyIter towlower q).filter Setting.user =
        sec.settingsMap.keyIter towlower q := filter_eq_self.mpr fun s hs =>
      huser s ((hok.mem s).mp (StrMap.mem_keyIter.mp hs).1)
    have hlisted : (sec.listed towlower q).filter Setting.user = sec.listed towlower q :=
      filter_eq_self.mpr fun s hs => huser s (mem_filter.mp hs).1
    rw [hkeyed, hlisted] at hq
    exact hq
  · refine List.Pairwise.imp_of_mem (R := fun _ _ => True) (fun {s t} hs _ _ htmpl => ?_)
      (pairwise_of_forall fun _ _ => trivial)
    rw [hnone s (mem_filter.mp hs).1] at htmpl
    cases htmpl

end Section.UserOrder

/-! ### Updates -/

variable (towlower) in
/-- A value that an update puts in front has no other value of its name behind it: when one is
appended there is none, and when one is set there is none from a template, unless the name is
`Template`, where those are merged anew. -/
def Section.Free (sec : Section) (name value : Option (List WChar)) (mode : Mode) : Prop :=
  ∀ n, name = some n → value.isSome = true → ∀ t ∈ sec.settings,
    sameKey towlower n t.name = true → mode ≠ .appendValue ∧
      (mode = .updateValue → sameNoCase towlower n template = false → t.fromTemplate = false)

section Changed

variable {sec : Section} {n : Nat}

theorem addAll_inOrder : ∀ (ss : List Setting) {sec : Section}, sec.InOrder towlower →
    (∀ s ∈ ss, s.fromTemplate = true) → (sec.addAll ss).InOrder towlower := by
  intro ss
  induction ss with
  | nil => exact fun h _ => h
  | cons s ss ih =>
    exact fun h hss => ih (h.add_last (.inl (hss s mem_cons_self)))
      fun t ht => hss t (mem_cons_of_mem s ht)

theorem addAll_userOrder : ∀ (ss : List Setting) {sec : Section}, sec.UserOrder towlower →
    (sec.addAll ss).UserOrder towlower := by
  intro ss
  induction ss with
  | nil => exact fun h => h
  | cons s ss ih => exact fun h => ih (h.add_last s)

theorem withoutOld_ok (hok : sec.Ok n) (name : List WChar) (value : Option (List WChar))
    (mode : Mode) : (sec.withoutOld towlower name value mode).Ok n := by
  unfold Section.withoutOld
  split
  · exact hok
  · exact hok.foldl_remove _

theorem withoutOld_inOrder (h : sec.InOrder towlower) (name : List WChar)
    (value : Option (List WChar)) (mode : Mode) :
    (sec.withoutOld towlower name value mode).InOrder towlower := by
  unfold Section.withoutOld
  split
  · exact h
  · exact Section.InOrder.foldl_remove _ h

theorem withoutTemplates_inOrder (h : sec.UserOrder towlower) (hok : sec.Ok n) :
    sec.withoutTemplates.InOrder towlower := by
  refine Section.UserOrder.inOrder (n := n) (Section.UserOrder.foldl_remove _ h)
    (hok.foldl_remove _) fun s hs => ?_
  exact ((mem_withoutTemplates hok).mp hs).2

theorem mem_takeWhile_of_last {l : List Setting} {t : Setting}
    (h : l.Pairwise fun s t => s.fromTemplate = true → t.fromTemplate = true) (ht : t ∈ l)
    (huser : t.fromTemplate = false) : t ∈ l.takeWhile fun s => !s.fromTemplate := by
  induction l with
  | nil => cases ht
  | cons s l ih =>
    obtain ⟨hs, hl⟩ := pairwise_cons.mp h
    rcases mem_cons.mp ht with rfl | ht
    · rw [takeWhile_cons_of_pos (by rw [huser]; rfl)]
      exact mem_cons_self
    have hfirst : s.fromTemplate = false := by
      cases hsome : s.fromTemplate with
      | false => rfl
      | true =>
        rw [hs t ht hsome] at huser
        cases huser
    rw [takeWhile_cons_of_pos (by rw [hfirst]; rfl)]
    exact mem_cons_of_mem s (ih hl ht)

theorem withoutOld_rest (h : sec.InOrder towlower) (hok : sec.Ok n) {name : List WChar}
    {value : Option (List WChar)} {t : Setting}
    (ht : t ∈ (sec.withoutOld towlower name value .updateValue).settings)
    (hkey : sameKey towlower name t.name = true) :
    t ∈ sec.settings ∧ t.fromTemplate = true := by
  rw [Section.withoutOld, if_neg (by decide), mem_foldl_remove _ hok] at ht
  refine ⟨ht.1, ?_⟩
  cases huser : t.fromTemplate with
  | true => rfl
  | false =>
    refine absurd ?_ ht.2
    refine mem_filter.mpr ⟨?_, ?_⟩
    · rw [h.order]
      exact mem_takeWhile_of_last (h.last name) (mem_filter.mpr ⟨ht.1, hkey⟩) huser
    · cases value <;> rfl

theorem changeNamed_ok (hok : sec.Ok n) (name value : Option (List WChar)) (mode : Mode) :
    (sec.changeNamed towlower n name value mode).Ok (n + 1) := by
  have hmono := hok.mono (Nat.le_succ n)
  unfold Section.changeNamed
  split
  · split
    · exact hmono
    · unfold Section.changeValues
      split
      · split
        · exact withoutOld_ok hmono _ _ _
        · exact (withoutOld_ok hok _ _ _).add rfl true
      · exact withoutOld_ok hmono _ _ _
  · exact hmono

theorem changed_inOrder (h : sec.InOrder towlower) (hok : sec.Ok n)
    {name value : Option (List WChar)} {mode : Mode} (hmode : mode ≠ .removeSection)
    (hfree : sec.Free towlower name value mode) :
    (sec.changed towlower n name value mode).InOrder towlower := by
  have hnamed := @changeNamed_ok towlower _ _ hok name value mode
  unfold Section.changed
  suffices horder : (sec.changeNamed towlower n name value mode).UserOrder towlower ∧
      (aboutTemplates towlower name mode = false ∨ mode = .appendValue →
        (sec.changeNamed towlower n name value mode).InOrder towlower) by
    split
    · exact withoutTemplates_inOrder horder.1 hnamed
    · rename_i habout
      refine horder.2 ?_
      by_cases happend : mode = .appendValue
      · exact .inr happend
      · exact .inl (Bool.not_eq_true _ |>.mp fun hc => habout ⟨hc, happend⟩)
  suffices hcases : (sec.changeNamed towlower n name value mode).InOrder towlower ∨
      (mode = .updateValue ∧ aboutTemplates towlower name mode = true ∧
        (sec.changeNamed towlower n name value mode).UserOrder towlower) by
    rcases hcases with hin | ⟨hset, habout, huser⟩
    · exact ⟨hin.userOrder, fun _ => hin⟩
    · refine ⟨huser, fun hor => ?_⟩
      rcases hor with hnot | happend
      · rw [habout] at hnot
        cases hnot
      · rw [hset] at happend
        cases happend
  cases name with
  | none => exact .inl h
  | some nm =>
    unfold Section.changeNamed Section.changeValues
    dsimp only
    by_cases htmpl : mode = .updateTemplates
    · rw [if_pos htmpl]
      exact .inl h
    rw [if_neg htmpl]
    have hold := withoutOld_inOrder h nm value mode
    cases value with
    | none => exact .inl hold
    | some v =>
      dsimp only
      by_cases hremove : mode = .removeValue
      · rw [if_pos hremove]
        exact .inl hold
      rw [if_neg hremove]
      by_cases happend : mode = .appendValue
      · refine .inl (hold.add_first fun t ht => Bool.not_eq_true _ |>.mp fun hkey => ?_)
        rw [Section.withoutOld, if_pos happend] at ht
        exact (hfree nm rfl rfl t ht hkey).1 happend
      have hset : mode = .updateValue := by cases mode <;> first | rfl | contradiction
      have hrest := fun {t} => @withoutOld_rest towlower _ _ h hok nm (some v) t
      rw [← hset] at hrest
      by_cases habout : sameNoCase towlower nm template = true
      · refine .inr ⟨hset, ?_, hold.userOrder.add_first fun t ht huser => ?_⟩
        · rw [aboutTemplates, Option.any_some, habout, Bool.or_true]
        · refine Bool.not_eq_true _ |>.mp fun hkey => ?_
          rw [(hrest ht hkey).2] at huser
          cases huser
      · refine .inl (hold.add_first fun t ht => Bool.not_eq_true _ |>.mp fun hkey => ?_)
        obtain ⟨ht, hfrom⟩ := hrest ht hkey
        have huser := (hfree nm rfl rfl t ht hkey).2 hset (Bool.not_eq_true _ |>.mp habout)
        rw [hfrom] at huser
        cases huser

end Changed

def InOrder (towlower : WChar → WChar) (d : ConfData) : Prop :=
  ∀ sec ∈ d.sections, sec.InOrder towlower

theorem addMarked_inOrder {d : ConfData} (h : InOrder towlower d) (name : List WChar)
    (insert : Bool) {mark : Section → Section} (hmark : Marks mark) :
    InOrder towlower (addMarked d name insert mark) := by
  intro x hx
  obtain ⟨y, hy, rfl⟩ := mem_modify.mp hx
  have hyo : y.InOrder towlower := by
    rcases mem_addSections.mp hy with hy | rfl
    · exact h y hy
    · exact Section.InOrder.new _ _
  split
  · exact hyo.mark (hmark y).2.2.1 (hmark y).2.2.2
  · exact hyo

variable (towlower) in
def UpdateFree (d : ConfData) (q : List WChar) (name value : Option (List WChar)) (mode : Mode) :
    Prop :=
  ∀ sec, findSections towlower d q = some sec → sec.Free towlower name value mode

theorem confUpdate_inOrder {fuel : Nat} {d d' : ConfData} {q : List WChar}
    {name value : Option (List WChar)} {mode : Mode} (hd : DataOk towlower d)
    (h : InOrder towlower d) (hfree : UpdateFree towlower d q name value mode)
    (hupdate : confUpdate towlower fuel d q name value mode = some d') :
    InOrder towlower d' := by
  -- an update of a section that is there, and where the value is free
  have hthere : ∀ {d : ConfData} {sec : Section}, DataOk towlower d → InOrder towlower d →
      findSections towlower d q = some sec → sec.Free towlower name value mode →
      confUpdate towlower fuel d q name value mode = some d' → InOrder towlower d' := by
    intro d sec hd h hfind hfree hupdate
    by_cases hdrop : mode = .removeSection
    · unfold confUpdate updateSection at hupdate
      rw [hfind] at hupdate
      dsimp only at hupdate
      rw [if_pos hdrop] at hupdate
      rw [← Option.some.inj hupdate]
      exact fun x hx => h x (mem_of_mem_eraseP hx)
    · obtain ⟨ss, n, hss, rfl⟩ := confUpdate_put hd hfind hdrop hupdate
      have hsec := findSections_mem hfind
      refine forall_put (fun x hx _ => h x hx) ?_
      exact addAll_inOrder ss (changed_inOrder (h sec hsec) (hd.settings sec hsec) hdrop hfree) hss
  cases hfind : findSections towlower d q with
  | some sec => exact hthere hd h hfind (hfree sec hfind) hupdate
  | none =>
    by_cases hmode : mode = .removeValue ∨ mode = .removeSection
    · unfold confUpdate at hupdate
      rw [hfind] at hupdate
      rw [if_pos hmode] at hupdate
      rw [← Option.some.inj hupdate]
      exact h
    · rw [not_or] at hmode
      rw [confUpdate_addMarked hd hfind hmode.1 hmode.2] at hupdate
      refine hthere ((addMarked_edits true marks_virtual hfind).dataOk hd)
        (addMarked_inOrder h q true marks_virtual)
          (findSections_addMarked hd true marks_virtual hfind)
        ?_ hupdate
      intro n _ _ t ht
      cases ht

end Sandboxie.Conf
