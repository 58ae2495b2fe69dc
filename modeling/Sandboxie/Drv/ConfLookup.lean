import Sandboxie.Drv.ConfEdits
import Sandboxie.Drv.ConfGet

/-!
# Looking up names without regard to case

The maps compare keys without regard to case, but put them where the hash of the string as
it is written says.  So a name is found when a key that matches it has the same hash, and
`lookup_ignores_case_iff` is that for the maps, the sections and the settings.
-/

namespace Sandboxie.Conf

open Text

variable {towlower : WChar → WChar}

theorem getLoop_zero (l : List Setting) : (getLoop false l 0).1 = l.head? := by
  cases l with
  | nil => rfl
  | cons s rest =>
    rw [getLoop, Bool.false_and, if_neg (by decide), if_pos rfl]
    rfl

theorem confGet_noGlobal {d : ConfData} (hd : DataOk towlower d) {sec : Section}
    (hsec : sec ∈ d.sections) {q : List WChar} (hname : sec.name ≠ []) (hq : q ≠ []) :
    confGet towlower d (some sec.name) (some q) getNoGlobal =
      ((sec.settingsMap.keyIter towlower q).head?).map .value := by
  have hhelper : (getHelper towlower d sec.name q getNoGlobal false).1 =
      (sec.settingsMap.keyIter towlower q).head? := by
    unfold getHelper
    rw [hd.findSections_self hsec]
    exact getLoop_zero _
  have hvalue : (getValue towlower d (some sec.name) q getNoGlobal false false).1 =
      (sec.settingsMap.keyIter towlower q).head? := by
    unfold getValue
    dsimp only
    rw [Bool.and_false, Bool.false_and, if_neg (by decide)]
    exact hhelper
  unfold confGet getEx
  have hsome : (some sec.name : Option (List WChar)).any (· ≠ []) = true := decide_eq_true hname
  have hsome' : (some q : Option (List WChar)).any (· ≠ []) = true := decide_eq_true hq
  dsimp only
  rw [hsome, hsome', Bool.not_true, Bool.false_and, if_neg (by decide), if_neg (by decide),
    if_pos rfl]
  exact congrArg (Option.map Str.value) hvalue

/-- **Lookups ignore the case** of a name exactly when a key with that name has the hash of
the name. -/
theorem lookup_ignores_case_iff {α : Type} (name : α → List WChar) (ops : List (StrMap.Op α))
    {d : ConfData} (hd : Reachable towlower d) (q : List WChar) :
    ((((StrMap.build name towlower ops).mapGet towlower q).isSome = true ↔
        ∃ x ∈ (StrMap.build name towlower ops).nodes, sameNoCase towlower (name x) q = true) ↔
      Spelled towlower name (StrMap.build name towlower ops).nodes q) ∧
    (((findSections towlower d q).isSome = true ↔ (scanSections towlower d q).isSome = true) ↔
      Spelled towlower Section.name d.sections q) ∧
    ∀ sec ∈ d.sections, sec.name ≠ [] → q ≠ [] →
      (((confGet towlower d (some sec.name) (some q) getNoGlobal).isSome = true ↔
          ∃ s ∈ sec.settings, sameNoCase towlower s.name q = true) ↔
        Spelled towlower Setting.name sec.settings q) := by
  refine ⟨?_, ?_, fun sec hsec hname hq => ?_⟩
  · rw [StrMap.mapGet_isSome_iff]
    exact lookup_iff_spelled
  · rw [hd.dataOk.findSections_eq, scanSections, List.find?_isSome, List.find?_isSome]
    exact lookup_iff_spelled
  have hmem : (confGet towlower d (some sec.name) (some q) getNoGlobal).isSome = true ↔
      ∃ s ∈ sec.settings, sameKey towlower q s.name = true := by
    rw [confGet_noGlobal hd.dataOk hsec hname hq, Option.isSome_map, List.isSome_head?]
    refine ⟨fun h => ?_, fun h => ?_⟩
    · obtain ⟨s, hs⟩ := List.exists_mem_of_ne_nil _ h
      obtain ⟨hmem, hkey⟩ := StrMap.mem_keyIter.mp hs
      exact ⟨s, ((hd.dataOk.settings sec hsec).mem s).mp hmem, hkey⟩
    · obtain ⟨s, hs, hkey⟩ := h
      exact List.ne_nil_of_mem
        (StrMap.mem_keyIter.mpr ⟨((hd.dataOk.settings sec hsec).mem s).mpr hs, hkey⟩)
  rw [hmem]
  exact lookup_iff_spelled

/-- A setting `Foo`. -/
def settingFoo : Setting := ⟨0, wide ['F', 'o', 'o'], wide ['1'], false⟩

/-- A map with one setting, looked up as it is written. -/
theorem lookup_ignores_case_foo :
    ((StrMap.build Setting.name asciiLower [.append settingFoo]).mapGet asciiLower
        (wide ['F', 'o', 'o'])).isSome = true ↔
      ∃ s ∈ (StrMap.build Setting.name asciiLower [.append settingFoo]).nodes,
        sameNoCase asciiLower s.name (wide ['F', 'o', 'o']) = true := by
  refine (lookup_ignores_case_iff Setting.name [.append settingFoo] (Reachable.init 1 none)
    (wide ['F', 'o', 'o'])).1.mpr fun _ => ⟨settingFoo, ?_, by decide, rfl⟩
  exact ChainMap.mem_nodes_add.mpr (Or.inr rfl)

/-- The map does not find `foo`. -/
theorem lookup_minds_case :
    ¬ ∀ (ops : List (StrMap.Op Setting)) (q : List WChar),
      ((StrMap.build Setting.name asciiLower ops).mapGet asciiLower q).isSome = true ↔
        ∃ s ∈ (StrMap.build Setting.name asciiLower ops).nodes,
          sameNoCase asciiLower s.name q = true := by
  intro h
  have hmem : settingFoo ∈ (StrMap.build Setting.name asciiLower [.append settingFoo]).nodes :=
    ChainMap.mem_nodes_add.mpr (Or.inr rfl)
  have hfound := (h [.append settingFoo] (wide ['f', 'o', 'o'])).mpr
    ⟨settingFoo, hmem, by decide⟩
  obtain ⟨s, hs, hkey⟩ := StrMap.mapGet_isSome_iff.mp hfound
  obtain rfl : s = settingFoo := (ChainMap.mem_nodes_add.mp hs).resolve_left (by
    rw [ChainMap.nodes_empty]
    exact List.not_mem_nil)
  exact absurd (sameKey_iff.mp hkey).1 (by decide)

end Sandboxie.Conf
