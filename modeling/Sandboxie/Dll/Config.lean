import Sandboxie.Drv.ProcessConf

/-!
# Settings for an image, in the DLL

`core/dll/config.c`, in a process of the box.  `SbieApi_QueryConf` asks the driver for the
values, which come expanded and have to fit into a buffer.

The DLL gives the values without an image the level that the driver gives `*`, and it takes
the level of a value with an empty image for the sign that nothing was found.
`settings_agree` says when it selects the value that the driver selects nevertheless.
-/

namespace Sandboxie.Config

open Image ProcessConf List

/-- The number of characters in `conf_buf` that `SbieApi_QueryConf` is told of. -/
abbrev confBufLen : Nat := 2048 - 16

/-- `SbieApi_QueryConf` of a value: it fails when the value cannot be expanded or does not fit
with the zero at its end. -/
def queryConf (box : Box) (value : List WChar) : Option (List WChar) :=
  match box.expand value with
  | none => none
  | some value2 => if value2.length + 1 ≤ confBufLen then some value2 else none

/-- The values that a loop over the indices gets until the first failure. -/
def queryLoop (box : Box) : List (List WChar) → List (List WChar)
  | [] => []
  | value :: values =>
    match queryConf box value with
    | none => []
    | some confBuf => confBuf :: queryLoop box values

/-- The DLL does not expand patterns; `hexMatch` is its own `Pattern_Match`, for a pattern
with a hex part. -/
def dllSide (box : Box) (hexMatch : Pattern → List WChar → Bool) : Side :=
  ⟨box.towlower, some, hexMatch⟩

section Dll

variable (box : Box) (hexMatch : Pattern → List WChar → Bool)

def configMatchImageGroup (testStr : List WChar) : Nat → List WChar → Bool :=
  matchImageGroup (dllSide box hexMatch) (queryLoop box box.groups) testStr

def configMatchImage (patStr testStr : List WChar) : Bool :=
  matchImage (dllSide box hexMatch) (queryLoop box box.groups) patStr testStr

/-- `Config_MatchImageAndGetValue`: without an image name, values with an image do not apply. -/
def configMatchImageAndGetValue (imageName : Option (List WChar)) (value : List WChar)
    (level : Nat) : Option (List WChar) × Nat :=
  match imageName with
  | none =>
    if comma ∈ value then (none, level) else matchImageAndGetValue (fun _ => false) 2 value level
  | some imageName =>
    matchImageAndGetValue (fun patStr => configMatchImage box hexMatch patStr imageName) 2 value
      level

/-- `SbieDll_GetSettingsForName`: the value that it leaves in the buffer of its caller, and
whether there was one. -/
def getSettingsForName (name : Option (List WChar)) (values : List (List WChar))
    (deftext : List WChar) : List WChar × Bool :=
  let found := selectLoop (configMatchImageAndGetValue box hexMatch name) (queryLoop box values)
  if found.2 = unset then (deftext, false) else (found.1.getD [], true)

end Dll

/-! ### Texts without anything to expand -/

/-- A text of the configuration that fits into the buffer and no part of which is expanded
or, as a pattern, has a hex part. -/
structure Settled (box : Box) (text : List WChar) : Prop where
  fits : text.length + 1 ≤ confBufLen
  expand : ∀ part, part <:+: text → box.expand part = some part
  plain : ∀ part, part <:+: text → part ≠ [] →
    (Pattern.create box.towlower part true 0).Plain

section Settled

variable {box : Box} {hexMatch : Pattern → List WChar → Bool}

theorem queryLoop_settled {values : List (List WChar)} (h : ∀ v ∈ values, Settled box v) :
    queryLoop box values = values := by
  induction values with
  | nil => rfl
  | cons value values ih =>
    have hvalue := h value mem_cons_self
    rw [queryLoop, queryConf, hvalue.expand value (infix_refl _)]
    dsimp only
    rw [if_pos hvalue.fits]
    rw [ih fun v hv => h v (mem_cons_of_mem _ hv)]

theorem matchText_settled {text part : List WChar} (h : Settled box text) (hpart : part <:+: text)
    (hne : part ≠ []) (testStr : List WChar) :
    matchText (dllSide box hexMatch) part testStr = matchText box.side part testStr := by
  have hplain := h.plain part hpart hne
  rw [matchText, matchText, patternMatch, patternMatch]
  show (if (Pattern.create box.towlower part true 0).Plain then _ else _) =
    if (Pattern.create box.towlower part true 0).Plain then _ else _
  rw [if_pos hplain, if_pos hplain]
  rfl

theorem infix_of_mem_splitOn {list part : List WChar} (h : part ∈ list.splitOn comma) :
    part <:+: list := by
  have hmem : ∀ parts : List (List WChar), part ∈ parts → part <:+: [comma].intercalate parts := by
    intro parts
    induction parts with
    | nil =>
      intro h
      cases h
    | cons p parts ih =>
      intro h
      cases parts with
      | nil =>
        obtain rfl := mem_singleton.mp h
        rw [intercalate_singleton]
      | cons p' parts =>
        rw [intercalate_cons_cons]
        rcases mem_cons.mp h with rfl | h
        · exact ⟨[], [comma] ++ [comma].intercalate (p' :: parts), by simp⟩
        · obtain ⟨s, t, hst⟩ := ih h
          exact ⟨p ++ [comma] ++ s, t, by rw [← hst]; simp⟩
  have hjoin := hmem _ h
  rw [intercalate_splitOn] at hjoin
  exact hjoin

theorem mem_items {list item : List WChar} (h : item ∈ items list) :
    item <:+: list ∧ item ≠ [] := by
  rw [items, mem_filter, decide_eq_true_eq] at h
  exact ⟨infix_of_mem_splitOn h.1, h.2⟩

theorem groupList_suffix {side : Side} {group value list : List WChar}
    (h : groupList side group value = some list) : list <:+: value := by
  rw [groupList] at h
  split at h
  · cases h
  · split at h
    · cases h
    · split at h
      · cases h
      · cases h
        exact (drop_suffix _ _).isInfix

theorem any_congr_mem {α : Type} {p q : α → Bool} {l : List α} (h : ∀ a ∈ l, p a = q a) :
    l.any p = l.any q := by
  induction l with
  | nil => rfl
  | cons a l ih =>
    rw [any_cons, any_cons, h a mem_cons_self,
      ih fun b hb => h b (mem_cons_of_mem _ hb)]

theorem matchGroupWith_settled (hgroups : ∀ g ∈ box.groups, Settled box g)
    (testStr : List WChar) {deeper deeper' : List WChar → Bool}
    (hdeeper : ∀ item, deeper item = deeper' item) (group : List WChar) :
    matchGroupWith (dllSide box hexMatch) box.groups testStr deeper group =
      matchGroupWith box.side box.groups testStr deeper' group := by
  refine any_congr_mem fun value hvalue => ?_
  have hsame : groupList (dllSide box hexMatch) group value = groupList box.side group value := rfl
  rw [hsame]
  cases hlist : groupList box.side group value with
  | none => rfl
  | some list =>
    refine any_congr_mem fun item hitem => ?_
    obtain ⟨hpart, hne⟩ := mem_items hitem
    have hpart := hpart.trans (groupList_suffix hlist)
    have hexpand : box.side.expand item = some item := (hgroups value hvalue).expand item hpart
    split
    · exact hdeeper item
    · rw [hexpand]
      exact matchText_settled (hgroups value hvalue) hpart hne testStr

theorem matchImageGroup_settled (hgroups : ∀ g ∈ box.groups, Settled box g)
    (testStr : List WChar) : ∀ left group,
      matchImageGroup (dllSide box hexMatch) box.groups testStr left group =
        matchImageGroup box.side box.groups testStr left group
  | 0, group => matchGroupWith_settled hgroups testStr (fun _ => rfl) group
  | left + 1, group =>
    matchGroupWith_settled hgroups testStr (matchImageGroup_settled hgroups testStr left) group

/-- **The sides match images alike.** -/
theorem configMatchImage_eq (hgroups : ∀ g ∈ box.groups, Settled box g) {text part : List WChar}
    (h : Settled box text) (hpart : part <:+: text) (hne : part ≠ []) (testStr : List WChar) :
    configMatchImage box hexMatch part testStr = processMatchImage box part testStr := by
  rw [configMatchImage, processMatchImage, queryLoop_settled hgroups, matchImage, matchImage]
  have hexpand : box.side.expand part = some part := h.expand part hpart
  rw [hexpand]
  show (if _ then _ else _) = if _ then _ else _
  rw [matchImageGroup_settled hgroups testStr, matchText_settled h hpart hne]

end Settled

/-! ### Levels -/

/-- The level of the driver as the DLL numbers it. -/
def lowered (level : Nat) : Nat := if level = 3 then 2 else level

theorem lowered_mono {a b : Nat} (h : a ≤ b) : lowered a ≤ lowered b := by
  unfold lowered
  split <;> split <;> omega

theorem matchImageAndGetValue_lowered (hits : List WChar → Bool) (value : List WChar) :
    matchImageAndGetValue hits 2 value unset =
        ((matchImageAndGetValue hits 3 value unset).1,
          lowered (matchImageAndGetValue hits 3 value unset).2) ∧
      ((matchImageAndGetValue hits 3 value unset).2 ≤ 3 ∨
        (matchImageAndGetValue hits 3 value unset).2 = unset) := by
  unfold matchImageAndGetValue
  split
  · dsimp only
    split
    · exact ⟨rfl, .inr rfl⟩
    · split
      · exact ⟨rfl, .inr rfl⟩
      · split
        · exact ⟨rfl, .inl (Nat.le_succ 2)⟩
        · split
          · exact ⟨rfl, .inl (Nat.succ_le_succ (Nat.zero_le 2))⟩
          · exact ⟨rfl, .inl (Nat.zero_le 3)⟩
  · exact ⟨rfl, .inl (Nat.le_refl 3)⟩

theorem imagePart_part (value : List WChar) : (imagePart value).2 <:+: value := by
  have hfront : value.takeWhile (· ≠ comma) <:+: value := ( takeWhile_prefix _).isInfix
  unfold imagePart
  dsimp only
  split
  · exact (drop_suffix _ _).isInfix.trans hfront
  · exact hfront

theorem matchImageAndGetValue_congr {hits hits' : List WChar → Bool} {globalDefault : Nat}
    {value : List WChar} (h : ∀ part, part <:+: value → part ≠ [] → hits part = hits' part)
    (level : Nat) :
    matchImageAndGetValue hits globalDefault value level =
      matchImageAndGetValue hits' globalDefault value level := by
  unfold matchImageAndGetValue
  dsimp only
  split
  · split
    · rfl
    · rename_i hne
      rw [h _ (imagePart_part value) hne]
  · rfl

/-- The DLL selects the value of the driver: if no value for the image itself applies, the
last value for `*` is the last of these and of those without an image, and if values with an
empty image only apply, the last of them is the default. -/
def SameGlobal (deftext : List WChar) (cands : List Applying) : Prop :=
  (∀ c ∈ cands, 2 ≤ c.1) →
    (∀ v, lastOf (fun level => decide (level = 2)) cands = some v →
      lastOf (fun level => decide (level = 2 ∨ level = 3)) cands = some v) ∧
    ((∀ c ∈ cands, c.1 = unset) → ∀ v, lastOf (fun _ => true) cands = some v → v = deftext)

theorem lastOf_map (p : Nat → Bool) (f : Nat → Nat) (cands : List Applying) :
    lastOf p (cands.map fun c => (f c.1, c.2)) = lastOf (fun level => p (f level)) cands := by
  rw [lastOf, lastOf, filter_map, getLast?_map, Option.map_map]
  rfl

theorem lastOf_congr {p q : Nat → Bool} {cands : List Applying}
    (h : ∀ c ∈ cands, p c.1 = q c.1) : lastOf p cands = lastOf q cands := by
  rw [lastOf, lastOf, filter_congr h]

theorem lastOf_none {p : Nat → Bool} {cands : List Applying} (h : ∀ c ∈ cands, p c.1 = false) :
    lastOf p cands = none := by
  have hnil : (cands.filter fun c => p c.1) = [] :=
    filter_eq_nil_iff.mpr fun c hc => by simp [h c hc]
  rw [lastOf, hnil]
  rfl

/-- What the DLL makes of the values that apply in the driver. -/
def dllResult (deftext : List WChar) (cands : List Applying) : List WChar :=
  match KeepBest.keepBest closer (cands.map fun c => (lowered c.1, c.2)) with
  | none => deftext
  | some c => if c.1 = unset then deftext else c.2

/-- **When the least level of the driver and of the DLL give the same value.** -/
theorem keepBest_lowered (deftext : List WChar) {cands : List Applying}
    (hlevel : ∀ c ∈ cands, c.1 ≤ 3 ∨ c.1 = unset) :
    ((KeepBest.keepBest closer cands).map Prod.snd).getD deftext = dllResult deftext cands ↔
      SameGlobal deftext cands := by
  have hunset : 3 < unset := by decide
  rw [dllResult]
  cases hkeep : KeepBest.keepBest closer cands with
  | none =>
    rw [KeepBest.keepBest_eq_none_iff] at hkeep
    subst hkeep
    exact iff_of_true rfl fun _ => ⟨nofun, fun _ => nofun⟩
  | some c =>
    obtain ⟨hmem, hleast, hlast⟩ := keepBest_closer hkeep
    cases hkeep' : KeepBest.keepBest closer (cands.map fun c => (lowered c.1, c.2)) with
    | none =>
      rw [KeepBest.keepBest_eq_none_iff, map_eq_nil_iff] at hkeep'
      rw [hkeep'] at hmem
      cases hmem
    | some e =>
      obtain ⟨hmem', hleast', hlast'⟩ := keepBest_closer hkeep'
      -- the two least levels are the same one
      have hlowered : e.1 = lowered c.1 := by
        obtain ⟨a, ha, rfl⟩ := mem_map.mp hmem'
        have hle := hleast' _ (mem_map_of_mem hmem)
        exact Nat.le_antisymm hle (lowered_mono (hleast a ha))
      rw [lastOf_map, hlowered] at hlast'
      show c.2 = (if e.1 = unset then deftext else e.2) ↔ _
      rw [hlowered]
      have hc := hlevel c hmem
      rcases Nat.lt_or_ge c.1 2 with hlt | hge
      · -- an entry for the image itself
        have hsame : lastOf (fun level => decide (lowered level ≤ lowered c.1)) cands =
            lastOf (fun level => decide (level ≤ c.1)) cands := by
          refine lastOf_congr fun a _ => decide_eq_decide.mpr ?_
          unfold lowered
          split <;> split <;> omega
        rw [hsame, hlast] at hlast'
        have hne : lowered c.1 ≠ unset := by
          unfold lowered
          split <;> omega
        rw [if_neg hne]
        refine iff_of_true (Option.some.inj hlast') fun hall => ?_
        have := hall c hmem
        omega
      · rcases hc with hc | hc
        · have hne : lowered c.1 ≠ unset := by
            unfold lowered
            split <;> omega
          have hboth : lastOf (fun level => decide (lowered level ≤ lowered c.1)) cands =
              lastOf (fun level => decide (level = 2 ∨ level = 3)) cands := by
            refine lastOf_congr fun a ha => decide_eq_decide.mpr ?_
            have := hleast a ha
            unfold lowered
            split <;> split <;> omega
          rw [hboth] at hlast'
          rw [if_neg hne]
          have hnot : ¬ ∀ c ∈ cands, c.1 = unset := by
            intro hall
            have := hall c hmem
            omega
          have htwo : ∀ a ∈ cands, 2 ≤ a.1 := fun a ha => Nat.le_trans hge (hleast a ha)
          rcases Nat.lt_or_ge c.1 3 with hlt | hge3
          · have hstar : lastOf (fun level => decide (level ≤ c.1)) cands =
                lastOf (fun level => decide (level = 2)) cands := by
              refine lastOf_congr fun a ha => decide_eq_decide.mpr ?_
              have := htwo a ha
              omega
            rw [hstar] at hlast
            refine ⟨fun heq _ => ⟨fun v hv => ?_, fun hall => absurd hall hnot⟩, fun h => ?_⟩
            · rw [hlast] at hv
              rw [hlast', ← heq, Option.some.inj hv]
            · have hv := (h htwo).1 c.2 hlast
              rw [hlast'] at hv
              exact (Option.some.inj hv).symm
          · have hthree : lastOf (fun level => decide (level ≤ c.1)) cands =
                lastOf (fun level => decide (level = 2 ∨ level = 3)) cands := by
              refine lastOf_congr fun a ha => decide_eq_decide.mpr ?_
              have := hleast a ha
              omega
            rw [hthree, hlast'] at hlast
            have hnone : lastOf (fun level => decide (level = 2)) cands = none := by
              refine lastOf_none fun a ha => decide_eq_false ?_
              have := hleast a ha
              omega
            refine iff_of_true (Option.some.inj hlast).symm fun _ => ⟨fun v hv => ?_, fun hall =>
              absurd hall hnot⟩
            rw [hnone] at hv
            cases hv
        · -- values with an empty image only
          have hall : ∀ a ∈ cands, a.1 = unset := by
            intro a ha
            have hle := hleast a ha
            rcases hlevel a ha with hlow | hun
            · omega
            · exact hun
          have hevery : lastOf (fun level => decide (level ≤ c.1)) cands =
              lastOf (fun _ => true) cands := by
            refine lastOf_congr fun a ha => ?_
            rw [hall a ha, hc]
            exact decide_eq_true (Nat.le_refl _)
          rw [hevery] at hlast
          have hun : lowered c.1 = unset := by
            rw [hc]
            rfl
          rw [if_pos hun]
          have hnone : lastOf (fun level => decide (level = 2)) cands = none := by
            refine lastOf_none fun a ha => decide_eq_false ?_
            rw [hall a ha]
            decide
          refine ⟨fun heq _ => ⟨fun v hv => ?_, fun _ v hv => ?_⟩, fun h => ?_⟩
          · rw [hnone] at hv
            cases hv
          · rw [hlast] at hv
            rw [← heq, Option.some.inj hv]
          · refine (h fun a ha => ?_).2 hall c.2 hlast
            rw [hall a ha]
            decide

/-! ### The driver and the DLL -/

/-- **The driver and the DLL select the same value** if and only if, when no value for the image
itself applies, the last `*` value is not overruled by a different value without an image, and
values with an empty image are not all there is (or say what the default says). -/
theorem settings_agree (box : Box) (hexMatch : Pattern → List WChar → Bool)
    (imageName : List WChar) (values : List (List WChar)) (deftext : List WChar)
    (hvalues : ∀ v ∈ values, Settled box v) (hgroups : ∀ g ∈ box.groups, Settled box g) :
    (processGetConfEx box imageName values).getD deftext =
        (getSettingsForName box hexMatch (some imageName) values deftext).1 ↔
      SameGlobal deftext (applying (processMatchImageAndGetValue box imageName) values) := by
  have hunset : 3 < unset := by decide
  have hlevel : ∀ value, (processMatchImageAndGetValue box imageName value unset).2 ≤ 3 ∨
      (processMatchImageAndGetValue box imageName value unset).2 = unset :=
    fun value => (matchImageAndGetValue_lowered _ value).2
  have hdll : ∀ value ∈ values, configMatchImageAndGetValue box hexMatch (some imageName) value
      unset = ((processMatchImageAndGetValue box imageName value unset).1,
        lowered (processMatchImageAndGetValue box imageName value unset).2) := by
    intro value hvalue
    rw [configMatchImageAndGetValue, processMatchImageAndGetValue,
      ← (matchImageAndGetValue_lowered _ value).1]
    exact matchImageAndGetValue_congr
      (fun part hpart hne => configMatchImage_eq hgroups (hvalues value hvalue) hpart hne _) unset
  have hcands : applying (configMatchImageAndGetValue box hexMatch (some imageName)) values =
      (applying (processMatchImageAndGetValue box imageName) values).map
        fun c => (lowered c.1, c.2) := by
    rw [applying, applying, map_filterMap]
    refine filterMap_congr fun value hvalue => ?_
    rw [hdll value hvalue, Option.map_map]
    rfl
  have hcand : ∀ c ∈ applying (processMatchImageAndGetValue box imageName) values,
      c.1 ≤ 3 ∨ c.1 = unset := by
    intro c hc
    obtain ⟨value, _, hc⟩ := mem_filterMap.mp hc
    obtain ⟨v, _, rfl⟩ := Option.map_eq_some_iff.mp hc
    exact hlevel value
  rw [← keepBest_lowered deftext hcand]
  have hdrv : (processGetConfEx box imageName values).getD deftext =
      ((KeepBest.keepBest closer (applying (processMatchImageAndGetValue box imageName)
        values)).map Prod.snd).getD deftext := by
    rw [processGetConfEx, selectLoop_eq fun value _ => ?_]
    · cases KeepBest.keepBest closer _ <;> rfl
    · rcases hlevel value with h | h <;> omega
  have hsettings : (getSettingsForName box hexMatch (some imageName) values deftext).1 =
      dllResult deftext (applying (processMatchImageAndGetValue box imageName) values) := by
    rw [getSettingsForName, queryLoop_settled hvalues, selectLoop_eq fun value hvalue => ?_,
      hcands, dllResult]
    · cases KeepBest.keepBest closer _ with
      | none => rfl
      | some c =>
        dsimp only
        split <;> rfl
    · rw [hdll value hvalue]
      have hmono : lowered (processMatchImageAndGetValue box imageName value unset).2 ≤
          lowered unset := lowered_mono (by rcases hlevel value with h | h <;> omega)
      exact hmono
  rw [hdrv, hsettings]

/-! ### Two lists of values -/

def plainBox : Box := ⟨Text.asciiLower, some, [], fun _ _ => false⟩

theorem settled_of_parts {text : List WChar} (hfits : text.length + 1 ≤ confBufLen)
    (h : ∀ part ∈ text.tails.flatMap List.inits, part ≠ [] →
      (Pattern.create Text.asciiLower part true 0).Plain) : Settled plainBox text := by
  refine ⟨hfits, fun _ _ => rfl, fun part hpart hne => h part ?_ hne⟩
  obtain ⟨t, hprefix, hsuffix⟩ := infix_iff_prefix_suffix.mp hpart
  exact mem_flatMap.mpr ⟨t, (mem_tails _ _).mpr hsuffix, (mem_inits _ _).mpr hprefix⟩

/-- `a,v` and `w` for the image `a`: both sides select `v`. -/
theorem settings_agree_exact :
    (processGetConfEx plainBox [97] [[97, 44, 118], [119]]).getD [] =
      (getSettingsForName plainBox (fun _ _ => false) (some [97])
        [[97, 44, 118], [119]] []).1 := by
  refine (settings_agree plainBox (fun _ _ => false) [97] [[97, 44, 118], [119]] [] ?_ nofun).mpr ?_
  · intro v hv
    rcases mem_cons.mp hv with rfl | hv
    · exact settled_of_parts (by decide) (by decide)
    · obtain rfl := mem_singleton.mp hv
      exact settled_of_parts (by decide) (by decide)
  · have hcands : applying (processMatchImageAndGetValue plainBox [97]) [[97, 44, 118], [119]] =
        [(0, [118]), (3, [119])] := by decide
    intro hall
    have := hall (0, [118]) mem_cons_self
    omega

/-- `*,v` and `w`: the driver selects `v` and the DLL `w`.  `,v`: the driver selects `v` and
the DLL the default. -/
theorem settings_differ :
    processGetConfEx plainBox [97] [[42, 44, 118], [119]] = some [118] ∧
      getSettingsForName plainBox (fun _ _ => false) (some [97]) [[42, 44, 118], [119]] [100] =
        ([119], true) ∧
      processGetConfEx plainBox [97] [[44, 118]] = some [118] ∧
      getSettingsForName plainBox (fun _ _ => false) (some [97]) [[44, 118]] [100] =
        ([100], false) := by
  refine ⟨?_, ?_, ?_, ?_⟩ <;> decide

end Sandboxie.Config
