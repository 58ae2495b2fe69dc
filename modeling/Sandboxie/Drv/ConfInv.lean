import Mathlib.Data.List.Nodup
import Mathlib.Logic.Relation
import Sandboxie.Drv.Conf

/-!
# What holds of every configuration

The list and the map of a section have the same settings, and so have the list and the map
of the configuration the same sections (`DataOk`).  The operations are made of five edits
(`Edit`), each of which keeps that.

With it, `findSections_eq` says that the map finds the section that a scan of the list for
the key would find.
-/

namespace Sandboxie.Conf

open Text List

theorem find?_eq_some_of_only {α : Type} {l : List α} {p : α → Bool} {a : α} (ha : a ∈ l)
    (hp : p a = true) (honly : ∀ b ∈ l, p b = true → b = a) : l.find? p = some a := by
  cases hf : l.find? p with
  | none => exact absurd hp (find?_eq_none.mp hf a ha)
  | some b => rw [honly b (mem_of_find?_eq_some hf) (find?_some hf)]

theorem nodup_map_added {α β : Type} {f : α → β} {l : List α} {a : α} (hfresh : f a ∉ l.map f)
    (h : (l.map f).Nodup) (insert : Bool) :
    ((if insert then a :: l else l ++ [a]).map f).Nodup := by
  cases insert with
  | true =>
    rw [if_pos rfl, map_cons]
    exact nodup_cons.mpr ⟨hfresh, h⟩
  | false =>
    rw [if_neg (by decide), map_append, map_singleton]
    exact (perm_append_singleton _ _).nodup_iff.mpr (nodup_cons.mpr ⟨hfresh, h⟩)

/-! ### A section -/

/-- The list and the map of a section have the same settings, with addresses below `n` that
are not used twice, and a chain has them in the order in which they were added. -/
structure Section.Ok (n : Nat) (sec : Section) : Prop where
  mem : ∀ s, s ∈ sec.settingsMap.nodes ↔ s ∈ sec.settings
  lt : ∀ s ∈ sec.settings, s.id < n
  nodup : (sec.settings.map Setting.id).Nodup
  sorted : ∀ h, (sec.settingsMap.withHash h).Pairwise fun s t => s.id < t.id

namespace Section.Ok

variable {n : Nat} {sec : Section}

theorem mono {n' : Nat} (h : sec.Ok n) (hn : n ≤ n') : sec.Ok n' :=
  ⟨h.mem, fun s hs => Nat.lt_of_lt_of_le (h.lt s hs) hn, h.nodup, h.sorted⟩

theorem settings_nodup (h : sec.Ok n) : sec.settings.Nodup := List.Nodup.of_map _ h.nodup

theorem withHash_nodup (h : sec.Ok n) (x : Nat) : (sec.settingsMap.withHash x).Nodup :=
  List.Pairwise.imp (fun {a b} hlt heq => by rw [heq] at hlt; exact Nat.lt_irrefl _ hlt)
    (h.sorted x)

theorem new (id : Nat) (name : List WChar) : (newSection id name).Ok n := by
  have hwith : ∀ h, (newSection id name).settingsMap.withHash h = [] :=
    fun h => ChainMap.withHash_resize _ (by decide) h
  refine ⟨fun s => ?_, fun s hs => (by cases hs), nodup_nil, fun h => ?_⟩
  · rw [ChainMap.mem_nodes, hwith]
    exact Iff.rfl
  · rw [hwith]
    exact List.Pairwise.nil

theorem add (h : sec.Ok n) {s : Setting} (hs : s.id = n) (insert : Bool) :
    (sec.add s insert).Ok (n + 1) := by
  have hmem : ∀ t, t ∈ (sec.add s insert).settings ↔ t ∈ sec.settings ∨ t = s := by
    intro t
    unfold Section.add
    cases insert with
    | true => rw [if_pos rfl, mem_cons, or_comm]
    | false => rw [if_neg (by decide), mem_append, mem_singleton]
  have hfresh : s.id ∉ sec.settings.map Setting.id := by
    intro hmem
    obtain ⟨t, ht, hid⟩ := mem_map.mp hmem
    have := h.lt t ht
    omega
  refine ⟨fun t => ?_, fun t ht => ?_, ?_, fun x => ?_⟩
  · rw [hmem]
    exact ChainMap.mem_nodes_add.trans (or_congr (h.mem t) Iff.rfl)
  · rcases (hmem t).mp ht with ht | rfl
    · exact Nat.lt_succ_of_lt (h.lt t ht)
    · omega
  · exact nodup_map_added hfresh h.nodup insert
  show ((sec.settingsMap.mapAppend s).withHash x).Pairwise _
  rw [StrMap.mapAppend, ChainMap.withHash_add]
  by_cases hx : nodeHash Setting.name s = x
  · rw [if_pos hx, if_pos rfl]
    refine pairwise_append.mpr ⟨h.sorted x, pairwise_singleton _ _, ?_⟩
    intro t ht u hu
    rw [mem_singleton.mp hu, hs]
    exact h.lt t ((h.mem t).mp (ChainMap.mem_withHash.mp ht).1)
  · rw [if_neg hx]
    exact h.sorted x

theorem remove (h : sec.Ok n) (s : Setting) : (sec.remove s).Ok n := by
  refine ⟨fun t => ?_, fun t ht => h.lt t (mem_of_mem_erase ht), ?_, fun x => ?_⟩
  · show t ∈ (sec.settingsMap.erase s).nodes ↔ t ∈ sec.settings.erase s
    rw [ChainMap.mem_nodes_erase (h.withHash_nodup _), h.settings_nodup.mem_erase_iff, h.mem,
      and_comm]
  · exact h.nodup.sublist (erase_sublist.map _)
  · show ((sec.settingsMap.erase s).withHash x).Pairwise _
    rw [ChainMap.withHash_erase]
    split
    · exact (h.sorted x).sublist erase_sublist
    · exact h.sorted x

theorem foldl_remove (ss : List Setting) : ∀ {sec : Section}, sec.Ok n →
    (ss.foldl Section.remove sec).Ok n := by
  induction ss with
  | nil => exact fun h => h
  | cons s ss ih => exact fun h => ih (h.remove s)

end Section.Ok

/-- Two sections are the same but for their settings. -/
structure Section.Same (a b : Section) : Prop where
  id : a.id = b.id
  name : a.name = b.name
  fromTemplate : a.fromTemplate = b.fromTemplate
  isVirtual : a.isVirtual = b.isVirtual
  includePath : a.includePath = b.includePath

theorem Section.Same.refl (sec : Section) : sec.Same sec := ⟨rfl, rfl, rfl, rfl, rfl⟩

theorem Section.Same.trans {a b c : Section} (h : a.Same b) (h' : b.Same c) : a.Same c :=
  ⟨h.id.trans h'.id, h.name.trans h'.name, h.fromTemplate.trans h'.fromTemplate,
    h.isVirtual.trans h'.isVirtual, h.includePath.trans h'.includePath⟩

theorem add_same (sec : Section) (s : Setting) (insert : Bool) : (sec.add s insert).Same sec :=
  ⟨rfl, rfl, rfl, rfl, rfl⟩

theorem remove_same (sec : Section) (s : Setting) : (sec.remove s).Same sec :=
  ⟨rfl, rfl, rfl, rfl, rfl⟩

theorem foldl_remove_same (ss : List Setting) : ∀ sec : Section,
    (ss.foldl Section.remove sec).Same sec := by
  induction ss with
  | nil => exact Section.Same.refl
  | cons s ss ih => exact fun sec => (ih (sec.remove s)).trans (remove_same sec s)

/-! ### The configuration -/

variable {towlower : WChar → WChar}

/-- The list and the map of the configuration have the same sections, one for a key. -/
structure DataOk (towlower : WChar → WChar) (d : ConfData) : Prop where
  settings : ∀ sec ∈ d.sections, sec.Ok d.nextId
  lt : ∀ sec ∈ d.sections, sec.id < d.nextId
  nodup : (d.sections.map Section.id).Nodup
  mem : ∀ node : SectionNode,
    node ∈ d.sectionsMap.nodes ↔ ∃ sec ∈ d.sections, node = ⟨sec.name, sec.id⟩
  once : ∀ h, (d.sectionsMap.withHash h).Nodup
  keys : ∀ a ∈ d.sections, ∀ b ∈ d.sections, sameKey towlower a.name b.name = true → a = b

variable {d : ConfData} {sec : Section}

theorem section?_mem {id : Nat} (h : d.section? id = some sec) :
    sec ∈ d.sections ∧ sec.id = id := by
  have hid := find?_some h
  exact ⟨mem_of_find?_eq_some h, beq_iff_eq.mp hid⟩

theorem findSections_mem {q : List WChar}
    (h : findSections towlower d q = some sec) : sec ∈ d.sections := by
  unfold findSections at h
  split at h
  · cases h
  · exact (section?_mem h).1

namespace DataOk

variable {d : ConfData}

theorem section?_eq (h : DataOk towlower d) {sec : Section} (hsec : sec ∈ d.sections) :
    d.section? sec.id = some sec :=
  find?_eq_some_of_only hsec (beq_self_eq_true _) fun _ hb hid =>
    inj_on_of_nodup_map h.nodup hb hsec (beq_iff_eq.mp hid)

/-- **`Conf_Find_Sections`** finds what a scan of the list for the key finds. -/
theorem findSections_eq (h : DataOk towlower d) (q : List WChar) :
    findSections towlower d q = d.sections.find? fun sec => sameKey towlower q sec.name := by
  unfold findSections
  cases hget : d.sectionsMap.mapGet towlower q with
  | none =>
    refine (find?_eq_none.mpr fun sec hsec hkey => ?_).symm
    have hsome := StrMap.mapGet_isSome_iff (m := d.sectionsMap) |>.mpr
      ⟨⟨sec.name, sec.id⟩, (h.mem _).mpr ⟨sec, hsec, rfl⟩, hkey⟩
    rw [hget] at hsome
    cases hsome
  | some node =>
    obtain ⟨hnode, hkey⟩ := StrMap.mapGet_mem hget
    obtain ⟨sec, hsec, rfl⟩ := (h.mem node).mp hnode
    refine (h.section?_eq hsec).trans (find?_eq_some_of_only hsec hkey fun b hb hb' => ?_).symm
    exact h.keys b hb sec hsec (sameKey_trans hb' hkey)

theorem findSections_self (h : DataOk towlower d) {sec : Section} (hsec : sec ∈ d.sections) :
    findSections towlower d sec.name = some sec := by
  rw [h.findSections_eq]
  exact find?_eq_some_of_only hsec (sameKey_refl sec.name) fun b hb hkey =>
    (h.keys sec hsec b hb hkey).symm

theorem findSections_eq_none (h : DataOk towlower d) {q : List WChar} :
    findSections towlower d q = none ↔
      ∀ sec ∈ d.sections, ¬ sameKey towlower q sec.name = true := by
  rw [h.findSections_eq, find?_eq_none]

theorem sameKey_of_findSections (h : DataOk towlower d) {q : List WChar} {sec : Section}
    (hfind : findSections towlower d q = some sec) : sameKey towlower q sec.name = true := by
  rw [h.findSections_eq] at hfind
  have hkey := find?_some hfind
  exact hkey

end DataOk

theorem mem_modify {id : Nat} {f : Section → Section} {x : Section} :
    x ∈ (d.modify id f).sections ↔
      ∃ sec ∈ d.sections, x = if sec.id = id then f sec else sec := by
  rw [ConfData.modify, mem_map]
  exact exists_congr fun sec => and_congr_right fun _ => eq_comm

theorem mem_addSections {name : List WChar} {insert : Bool} :
    sec ∈ (addSections d name insert).sections ↔
      sec ∈ d.sections ∨ sec = newSection d.nextId name := by
  unfold addSections
  cases insert with
  | true => rw [if_pos rfl, mem_cons, or_comm]
  | false => rw [if_neg (by decide), mem_append, mem_singleton]

namespace DataOk

variable {d : ConfData}

theorem empty (home : Nat) (path : Option (List WChar)) :
    DataOk towlower (emptyData home path) := by
  have hwith : ∀ h, (emptyData home path).sectionsMap.withHash h = [] :=
    fun h => ChainMap.withHash_resize _ (by decide) h
  refine ⟨fun _ hs => (by cases hs), fun _ hs => (by cases hs), nodup_nil, fun node => ?_,
    fun h => ?_, fun _ hs => (by cases hs)⟩
  · rw [ChainMap.mem_nodes, hwith]
    refine ⟨fun hn => (by cases hn), fun hn => ?_⟩
    obtain ⟨sec, hsec, _⟩ := hn
    cases hsec
  · rw [hwith]
    exact nodup_nil

theorem modify (h : DataOk towlower d) {id n : Nat} {f : Section → Section}
    (hid : ∀ sec, (f sec).id = sec.id) (hname : ∀ sec, (f sec).name = sec.name)
    (hok : ∀ sec, sec.Ok d.nextId → (f sec).Ok n) (hn : d.nextId ≤ n) :
    DataOk towlower { d.modify id f with nextId := n } := by
  have hid' : ∀ sec : Section, (if sec.id = id then f sec else sec).id = sec.id := by
    intro sec
    split
    · exact hid sec
    · rfl
  have hname' : ∀ sec : Section, (if sec.id = id then f sec else sec).name = sec.name := by
    intro sec
    split
    · exact hname sec
    · rfl
  refine ⟨fun x hx => ?_, fun x hx => ?_, ?_, fun node => ?_, h.once, fun a ha b hb hkey => ?_⟩
  · obtain ⟨sec, hsec, rfl⟩ := mem_modify.mp hx
    split
    · exact hok sec (h.settings sec hsec)
    · exact (h.settings sec hsec).mono hn
  · obtain ⟨sec, hsec, rfl⟩ := mem_modify.mp hx
    rw [hid']
    exact Nat.lt_of_lt_of_le (h.lt sec hsec) hn
  · have hmap : (d.modify id f).sections.map Section.id = d.sections.map Section.id := by
      rw [ConfData.modify, map_map]
      exact map_congr_left fun sec _ => hid' sec
    show ((d.modify id f).sections.map Section.id).Nodup
    rw [hmap]
    exact h.nodup
  · refine (h.mem node).trans ⟨fun hex => ?_, fun hex => ?_⟩
    · obtain ⟨sec, hsec, rfl⟩ := hex
      refine ⟨_, mem_modify.mpr ⟨sec, hsec, rfl⟩, ?_⟩
      rw [hid', hname']
    · obtain ⟨x, hx, rfl⟩ := hex
      obtain ⟨sec, hsec, rfl⟩ := mem_modify.mp hx
      rw [hid', hname']
      exact ⟨sec, hsec, rfl⟩
  · obtain ⟨sec, hsec, rfl⟩ := mem_modify.mp ha
    obtain ⟨sec', hsec', rfl⟩ := mem_modify.mp hb
    rw [hname', hname'] at hkey
    rw [h.keys sec hsec sec' hsec' hkey]

theorem addSections (h : DataOk towlower d) {name : List WChar} (insert : Bool)
    (hname : findSections towlower d name = none) :
    DataOk towlower (addSections d name insert) := by
  have hnone := h.findSections_eq_none.mp hname
  have hnew : ⟨name, d.nextId⟩ ∉ d.sectionsMap.nodes := by
    intro hmem
    obtain ⟨sec, hsec, heq⟩ := (h.mem _).mp hmem
    have := h.lt sec hsec
    rw [(SectionNode.mk.inj heq).2] at this
    exact Nat.lt_irrefl _ this
  have hfresh : d.nextId ∉ d.sections.map Section.id := by
    intro hmem
    obtain ⟨sec, hsec, heq⟩ := mem_map.mp hmem
    have := h.lt sec hsec
    omega
  refine ⟨fun sec hsec => ?_, fun sec hsec => ?_, ?_, fun node => ?_, fun x => ?_,
    fun a ha b hb hkey => ?_⟩
  · rcases mem_addSections.mp hsec with hsec | rfl
    · exact (h.settings sec hsec).mono (Nat.le_succ _)
    · exact Section.Ok.new _ _
  · rcases mem_addSections.mp hsec with hsec | rfl
    · exact Nat.lt_succ_of_lt (h.lt sec hsec)
    · exact Nat.lt_succ_self _
  · exact nodup_map_added hfresh h.nodup insert
  · refine ChainMap.mem_nodes_add.trans ⟨fun hor => ?_, fun hex => ?_⟩
    · rcases hor with hmem | rfl
      · obtain ⟨sec, hsec, heq⟩ := (h.mem node).mp hmem
        exact ⟨sec, mem_addSections.mpr (Or.inl hsec), heq⟩
      · exact ⟨_, mem_addSections.mpr (Or.inr rfl), rfl⟩
    · obtain ⟨sec, hsec, rfl⟩ := hex
      rcases mem_addSections.mp hsec with hsec | rfl
      · exact Or.inl ((h.mem _).mpr ⟨sec, hsec, rfl⟩)
      · exact Or.inr rfl
  · show ((d.sectionsMap.mapInsert ⟨name, d.nextId⟩).withHash x).Nodup
    rw [StrMap.mapInsert, ChainMap.withHash_add]
    by_cases hx : nodeHash SectionNode.name ⟨name, d.nextId⟩ = x
    · rw [if_pos hx, if_neg (by decide)]
      refine nodup_cons.mpr ⟨fun hmem => ?_, h.once x⟩
      exact hnew (ChainMap.mem_withHash.mp hmem).1
    · rw [if_neg hx]
      exact h.once x
  · rcases mem_addSections.mp ha with ha | rfl
    · rcases mem_addSections.mp hb with hb | rfl
      · exact h.keys a ha b hb hkey
      · rw [sameKey_comm] at hkey
        exact absurd hkey (hnone a ha)
    · rcases mem_addSections.mp hb with hb | rfl
      · exact absurd hkey (hnone b hb)
      · rfl

theorem addSetting (h : DataOk towlower d) (id : Nat) (name value : List WChar)
    (insert fromTemplate : Bool) :
    DataOk towlower (addSetting d id name value insert fromTemplate) :=
  h.modify (fun _ => rfl) (fun _ => rfl) (fun _ hsec => hsec.add rfl insert) (Nat.le_succ _)

theorem removeSettings (h : DataOk towlower d) (id : Nat) (ss : List Setting) :
    DataOk towlower (removeSettings d id ss) :=
  h.modify (n := d.nextId) (fun sec => (foldl_remove_same ss sec).id)
    (fun sec => (foldl_remove_same ss sec).name) (fun _ hsec => hsec.foldl_remove ss)
      (Nat.le_refl _)

theorem mem_dropSection (h : DataOk towlower d) {sec x : Section} (hsec : sec ∈ d.sections) :
    x ∈ (dropSection towlower d sec).sections ↔ x ∈ d.sections ∧ x ≠ sec := by
  have hids : ∀ y ∈ d.sections, (y.id == sec.id) = true → y = sec := fun y hy hid =>
    inj_on_of_nodup_map h.nodup hy hsec (beq_iff_eq.mp hid)
  show x ∈ d.sections.eraseP (fun s => s.id == sec.id) ↔ _
  by_cases hx : (x.id == sec.id) = true
  · refine ⟨fun hmem => ?_, fun hmem => ?_⟩
    · have heq := hids x (mem_of_mem_eraseP hmem) hx
      obtain ⟨y, l1, l2, _, hy, hl, herase⟩ :=
        exists_of_eraseP (p := fun s => s.id == sec.id) hsec (beq_self_eq_true sec.id)
      have hysec : y = sec := hids y
        (by rw [hl]; exact mem_append_right _ mem_cons_self) hy
      have hnodup : d.sections.Nodup := List.Nodup.of_map _ h.nodup
      rw [herase, heq] at hmem
      rw [hl, hysec] at hnodup
      exact absurd hmem (nodup_cons.mp (perm_middle.nodup_iff.mp hnodup)).1
    · exact absurd (hids x hmem.1 hx) hmem.2
  · rw [mem_eraseP_of_neg (p := fun s : Section => s.id == sec.id) hx]
    refine ⟨fun hmem => ⟨hmem, fun heq => hx (by rw [heq]; exact beq_self_eq_true _)⟩,
      fun hmem => hmem.1⟩

theorem dropSection (h : DataOk towlower d) {sec : Section} (hsec : sec ∈ d.sections) :
    DataOk towlower (dropSection towlower d sec) := by
  have hmem := fun x => h.mem_dropSection (x := x) hsec
  have hnode : (⟨sec.name, sec.id⟩ : SectionNode) ∈ d.sectionsMap.nodes :=
    (h.mem _).mpr ⟨sec, hsec, rfl⟩
  have honly : ∀ z ∈ d.sectionsMap.withHash (nodeHash SectionNode.name ⟨sec.name, sec.id⟩),
      sameNoCase towlower z.name sec.name = true → z = ⟨sec.name, sec.id⟩ := by
    intro z hz hmatch
    obtain ⟨hz, hhash⟩ := ChainMap.mem_withHash.mp hz
    obtain ⟨sec', hsec', rfl⟩ := (h.mem z).mp hz
    have hkey : sameKey towlower sec.name sec'.name = true :=
      sameKey_iff.mpr ⟨UInt32.toNat_inj.mp hhash, hmatch⟩
    rw [h.keys sec hsec sec' hsec' hkey]
  refine ⟨fun x hx => h.settings x ((hmem x).mp hx).1, fun x hx => h.lt x ((hmem x).mp hx).1, ?_,
    fun node => ?_, fun x => ?_, fun a ha b hb => h.keys a ((hmem a).mp ha).1 b ((hmem b).mp hb).1⟩
  · exact h.nodup.sublist (eraseP_sublist.map _)
  · refine (ChainMap.mem_nodes_remove hnode (sameNoCase_refl towlower sec.name) (h.once _)
      honly).trans ?_
    rw [h.mem]
    refine ⟨fun hex => ?_, fun hex => ?_⟩
    · obtain ⟨⟨x, hx, rfl⟩, hne⟩ := hex
      exact ⟨x, (hmem x).mpr ⟨hx, fun heq => hne (by rw [heq])⟩, rfl⟩
    · obtain ⟨x, hx, rfl⟩ := hex
      obtain ⟨hx, hne⟩ := (hmem x).mp hx
      refine ⟨⟨x, hx, rfl⟩, fun heq => hne ?_⟩
      exact inj_on_of_nodup_map h.nodup hx hsec (SectionNode.mk.inj heq).2
  · show ((d.sectionsMap.mapRemove towlower sec.name).withHash x).Nodup
    rw [StrMap.mapRemove, ChainMap.withHash_remove]
    split
    · exact (h.once x).sublist eraseP_sublist
    · exact h.once x

end DataOk

/-! ### Edits -/

/-- One change of a configuration. -/
inductive Edit (towlower : WChar → WChar) : ConfData → ConfData → Prop
  | addSections (d : ConfData) (name : List WChar) (insert : Bool)
      (h : findSections towlower d name = none) : Edit towlower d (addSections d name insert)
  | mark (d : ConfData) (id : Nat) (f : Section → Section)
      (h : ∀ sec, (f sec).id = sec.id ∧ (f sec).name = sec.name ∧
        (f sec).settings = sec.settings ∧ (f sec).settingsMap = sec.settingsMap) :
      Edit towlower d (d.modify id f)
  | addSetting (d : ConfData) (id : Nat) (name value : List WChar) (insert fromTemplate : Bool) :
      Edit towlower d (addSetting d id name value insert fromTemplate)
  | removeSettings (d : ConfData) (id : Nat) (ss : List Setting) :
      Edit towlower d (removeSettings d id ss)
  | dropSection (d : ConfData) (sec : Section) (h : sec ∈ d.sections) :
      Edit towlower d (dropSection towlower d sec)

theorem Section.Ok.mark {n : Nat} (h : sec.Ok n) {sec' : Section}
    (hs : sec'.settings = sec.settings) (hm : sec'.settingsMap = sec.settingsMap) : sec'.Ok n := by
  refine ⟨?_, ?_, ?_, ?_⟩
  · rw [hs, hm]
    exact h.mem
  · rw [hs]
    exact h.lt
  · rw [hs]
    exact h.nodup
  · rw [hm]
    exact h.sorted

theorem Edit.dataOk {d' : ConfData} (h : Edit towlower d d') (hd : DataOk towlower d) :
    DataOk towlower d' := by
  cases h with
  | addSections name insert h => exact hd.addSections insert h
  | mark id f h =>
    exact hd.modify (n := d.nextId) (fun sec => (h sec).1) (fun sec => (h sec).2.1)
      (fun sec hsec => hsec.mark (h sec).2.2.1 (h sec).2.2.2) (Nat.le_refl _)
  | addSetting id name value insert fromTemplate =>
    exact hd.addSetting id name value insert fromTemplate
  | removeSettings id ss => exact hd.removeSettings id ss
  | dropSection sec h => exact hd.dropSection h

abbrev Edits (towlower : WChar → WChar) : ConfData → ConfData → Prop :=
  Relation.ReflTransGen (Edit towlower)

theorem Edits.dataOk {d' : ConfData} (h : Edits towlower d d') (hd : DataOk towlower d) :
    DataOk towlower d' := by
  induction h with
  | refl => exact hd
  | tail _ hstep ih => exact hstep.dataOk ih

end Sandboxie.Conf
