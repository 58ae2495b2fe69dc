import Sandboxie.Common.PatternGlob
import Sandboxie.Dll.DummyArea

/-!
# The list of the names that lead on

The entries of the area come into the sorted list, each name once.  `mergeDummy_iff` says when the
listing is what is wanted: there has to be room for every name, in the area and in the buffer for
the mask, and no pattern may go on from the true path with a star at once, as for
`\\dir\\*`, which gives a name without characters.
-/

namespace Sandboxie.MergeDummy

open Cells Text MergeCache Records SortedList List Option

variable {towlower upcase : WChar → WChar} {area : List WChar} {p : Nat}
  {names : List (List WChar)} {r : Request}

/-! ### From the area into the list -/

variable {name : List WChar}

theorem cacheFile_spec (harea : area.length = 0x8000)
    (h : Holds area p name) : ∃ e, cacheFile area p = some e ∧ e.name = name := by
  have hinside := h.inside
  have hlen : ((area.drop p).take ((110 + 2 * name.length) / 2)).length ≤ 55 + name.length := by
    rw [length_take]
    omega
  have hsome : (storeAll (List.replicate ((152 + 2 * name.length) / 2) 0)
      [(20, (area.drop p).take ((110 + 2 * name.length) / 2)), (20, ofU32 0)]).isSome = true := by
    refine storeAll_isSome_iff.mpr ?_
    simp only [forall_mem_cons, length_replicate, length_ofU32]
    exact ⟨by omega, by omega, fun _ h => by cases h⟩
  obtain ⟨block, hblock⟩ := isSome_iff_exists.mp hsome
  refine ⟨_, by rw [cacheFile, h.length, hblock, map_some], ?_⟩
  have hcell : ∀ i < name.length, block[72 + i]? = name[i]? := by
    intro i hi
    have hin : 52 + i < ((area.drop p).take ((110 + 2 * name.length) / 2)).length := by
      rw [length_take, length_drop]
      omega
    have hlast := getElem?_storeAll_of_last [] _ hblock hin (by
      simp only [forall_mem_cons, Covers, length_ofU32]
      exact ⟨by omega, fun _ h => by cases h⟩)
    have hlast : block[20 + (52 + i)]? =
        ((area.drop p).take ((110 + 2 * name.length) / 2))[52 + i]? := hlast
    rw [getElem?_take_of_lt (by omega), getElem?_drop, ← Nat.add_assoc p,
      h.name i hi, ← Nat.add_assoc] at hlast
    exact hlast
  refine ext_getElem? fun i => ?_
  have hwidth : 2 * name.length % 2 ^ 16 / 2 = name.length := by omega
  rw [hwidth]
  by_cases hi : i < name.length
  · rw [getElem?_take_of_lt hi, getElem?_drop, hcell i hi]
  · rw [getElem?_eq_none (by rw [length_take]; omega),
      getElem?_eq_none (by omega)]

theorem listEntries_spec (harea : area.length = 0x8000) {last : List WChar}
    (h : Entries area p names)
    (hlast : Holds area (p + behind (fun name => stride name.length) names) last)
    (hzero : u32 area (p + behind (fun name => stride name.length) names) = 0) {fuel : Nat}
    (hfuel : names.length < fuel) (cache : List (Entry (List WChar))) :
    ∃ es : List (Entry (List WChar)), es.map Entry.name = names ++ [last] ∧
      listEntries upcase area fuel p cache =
        some (es.foldl (fun cache e => insertFile upcase e cache) cache) := by
  induction names generalizing p fuel cache with
  | nil =>
    obtain ⟨fuel, rfl⟩ : ∃ f, fuel = f + 1 := ⟨fuel - 1, by omega⟩
    obtain ⟨e, he, hname⟩ := cacheFile_spec harea hlast
    refine ⟨[e], by rw [map_singleton, hname]; rfl, ?_⟩
    rw [behind_nil, Nat.add_zero] at he hzero
    rw [listEntries, he, bind_some, if_pos hzero]
    rfl
  | cons name names ih =>
    obtain ⟨fuel, rfl⟩ : ∃ f, fuel = f + 1 := ⟨fuel - 1, by omega⟩
    obtain ⟨hholds, hnext, hrest⟩ := h
    have hnext : u32 area p / 2 = stride name.length := hnext
    obtain ⟨e, he, hname⟩ := cacheFile_spec harea hholds
    have hstride := (stride_bounds name.length).1
    rw [behind_cons, ← Nat.add_assoc] at hlast hzero
    rw [length_cons, Nat.add_lt_add_iff_right] at hfuel
    obtain ⟨es, hes, hrun⟩ := ih hrest hlast hzero hfuel (insertFile upcase e cache)
    refine ⟨e :: es, by rw [map_cons, hname, hes]; rfl, ?_⟩
    rw [listEntries, he, bind_some, if_neg (by omega), hnext]
    exact hrun

theorem insertFile_eq (e : Entry (List WChar)) (cache : List (Entry (List WChar))) :
    insertFile upcase e cache = overlay (key upcase) (key upcase e) some (some e) cache := by
  unfold insertFile
  induction cache with
  | nil => rfl
  | cons b rest ih =>
    obtain ⟨hzero, hpos⟩ := @rtlCompareUnicodeString_spec upcase b.name e.name
    rw [insertEntry, overlay, ← ih]
    by_cases hlt : key upcase e < key upcase b
    · rw [if_neg fun hcmp => absurd (hzero.mp hcmp) (ne_of_gt hlt), if_pos (hpos.mpr hlt),
        if_pos hlt]
      rfl
    · rw [if_neg hlt]
      by_cases heq : key upcase b = key upcase e
      · rw [if_pos (hzero.mpr heq), if_pos heq]
        rfl
      · rw [if_neg fun hcmp => heq (hzero.mp hcmp), if_neg fun hcmp => hlt (hpos.mp hcmp),
          if_neg heq]
        cases insertEntry upcase e rest <;> rfl

theorem foldl_insertFile (es : List (Entry (List WChar))) :
    Ascending (key upcase) (es.foldl (fun cache e => insertFile upcase e cache) []) ∧
      ∀ e, e ∈ es.foldl (fun cache e => insertFile upcase e cache) [] ↔
        (es.find? fun b => key upcase b = key upcase e) = some e := by
  have hstep : (fun cache e => insertFile upcase e cache) =
      fun cache e => overlay (key upcase) (key upcase e) some (some e) cache := by
    funext cache e
    exact insertFile_eq e cache
  rw [hstep]
  obtain ⟨hsorted, hmem⟩ := @mem_foldl_keep _ _ _ (key upcase) es
  refine ⟨hsorted, fun e => (hmem e).trans (iff_of_eq ?_)⟩
  congr!

/-! ### The names that lead on -/

theorem take_length_takeWhile (q : WChar → Bool) (l : List WChar) :
    l.take (l.takeWhile q).length = l.takeWhile q :=
  (prefix_iff_eq_take.mp ( takeWhile_prefix q)).symm

theorem cut_at (d : WChar) (l : List WChar) : d ∉ l.takeWhile (· ≠ d) ∧
    (l.dropWhile (· ≠ d) = [] ∨ (l.dropWhile (· ≠ d)).head? = some d) := by
  constructor
  · intro hd
    have hne := mem_takeWhile_imp hd
    simp at hne
  · cases hrest : l.dropWhile (· ≠ d) with
    | nil => exact .inl rfl
    | cons c rest =>
      have hstop := @Pattern.head_dropWhile _ (· ≠ d) l c (by rw [hrest]; rfl)
      have hc : c = d := by simpa using hstop
      exact .inr (congrArg some hc)

theorem name_split (ptr : List WChar) : ∃ name rest, ptr = name ++ rest ∧
    ptr.take (nameLen ptr) = name ∧ Pattern.backslash ∉ name ∧
      (rest.head? = some Pattern.backslash ∨ (Pattern.backslash ∉ rest ∧ Pattern.star ∉ name ∧
        (rest = [] ∨ rest.head? = some Pattern.star))) := by
  unfold nameLen
  split
  · rename_i hin
    obtain ⟨hname, hrest⟩ := cut_at Pattern.backslash ptr
    refine ⟨_, ptr.dropWhile (· ≠ Pattern.backslash), takeWhile_append_dropWhile.symm,
      take_length_takeWhile _ _, hname, .inl (hrest.resolve_left fun hnil => hname ?_)⟩
    have hwhole : ptr = ptr.takeWhile (· ≠ Pattern.backslash) ++
        ptr.dropWhile (· ≠ Pattern.backslash) := takeWhile_append_dropWhile.symm
    rw [hnil, append_nil] at hwhole
    rw [hwhole] at hin
    exact hin
  · rename_i hout
    obtain ⟨hname, hrest⟩ := cut_at Pattern.star ptr
    refine ⟨_, ptr.dropWhile (· ≠ Pattern.star), takeWhile_append_dropWhile.symm,
      take_length_takeWhile _ _, fun hin => hout ?_, .inr ⟨fun hin => hout ?_, hname, hrest⟩⟩
    · exact ( takeWhile_prefix _).subset hin
    · exact (dropWhile_suffix _).subset hin

theorem takeWhile_stop {q : WChar → Bool} {rest : List WChar} (hname : ∀ c ∈ name, q c = true)
    (hrest : ∀ c ∈ rest.head?, q c = false) : (name ++ rest).takeWhile q = name := by
  rw [takeWhile_append_of_pos hname]
  cases rest with
  | nil => rw [takeWhile_nil, append_nil]
  | cons c rest =>
    have hc : ¬q c = true := by
      rw [hrest c rfl]
      decide
    rw [takeWhile_cons_of_neg hc, append_nil]

/-- The code cuts out the component. -/
theorem continues_iff {truePath patstr : List WChar} :
    Continues towlower truePath patstr name ↔
      ∃ ptr, afterPath towlower truePath patstr = some ptr ∧ name = ptr.take (nameLen ptr) := by
  have hpath : (truePath.take (truePathLen truePath)).length = truePathLen truePath := by
    refine List.length_take_of_le ?_
    unfold truePathLen
    split <;> omega
  constructor
  · rintro ⟨pre, rest, rfl, hpre, hname, hrest⟩
    have hlen : pre.length = truePathLen truePath := by
      have hmap := congrArg List.length (beq_iff_eq.mp hpre)
      rw [List.length_map, List.length_map, hpath] at hmap
      exact hmap
    refine ⟨name ++ rest, ?_, ?_⟩
    · have htake : (pre ++ Pattern.backslash :: (name ++ rest)).take (truePathLen truePath) = pre :=
        List.take_left' hlen
      have hat : (pre ++ Pattern.backslash :: (name ++ rest))[truePathLen truePath]? =
          some Pattern.backslash := by
        rw [List.getElem?_append_right (by omega), hlen, Nat.sub_self]
        rfl
      have hdrop : (pre ++ Pattern.backslash :: (name ++ rest)).drop (truePathLen truePath + 1) =
          name ++ rest := by
        rw [← hlen, List.drop_append]
        simp
      unfold afterPath
      dsimp only
      rw [htake, hat, if_pos ⟨hpre, rfl⟩, hdrop]
    · have hstop : (name ++ rest).take name.length = name := List.take_left
      unfold nameLen
      rcases hrest with hrest | ⟨hnone, hstar, hrest⟩
      · have hin : Pattern.backslash ∈ name ++ rest :=
          List.mem_append_right _ (List.mem_of_mem_head? hrest)
        rw [if_pos hin, takeWhile_stop, hstop]
        · intro c hc
          exact decide_eq_true fun heq => hname (heq ▸ hc)
        · intro c hc
          rw [hrest] at hc
          rw [← Option.some.inj hc]
          decide
      · have hout : ¬Pattern.backslash ∈ name ++ rest := fun hmem =>
          (List.mem_append.mp hmem).elim hname hnone
        rw [if_neg hout, takeWhile_stop, hstop]
        · intro c hc
          exact decide_eq_true fun heq => hstar (heq ▸ hc)
        · intro c hc
          rcases hrest with rfl | hrest
          · cases hc
          · rw [hrest] at hc
            rw [← Option.some.inj hc]
            decide
  · rintro ⟨ptr, hptr, rfl⟩
    unfold afterPath at hptr
    dsimp only at hptr
    split at hptr
    · rename_i hcond
      obtain ⟨hsame, hat⟩ := hcond
      obtain ⟨hlt, hget⟩ := List.getElem?_eq_some_iff.mp hat
      cases hptr
      obtain ⟨name, rest, hsplit, hname, hends⟩ :=
        name_split (patstr.drop (truePathLen truePath + 1))
      refine ⟨patstr.take (truePathLen truePath), rest, ?_, hsame, ?_⟩
      · rw [hname, ← hsplit, ← hget, ← List.drop_eq_getElem_cons hlt, List.take_append_drop]
      · rw [hname]
        exact hends
    · cases hptr

theorem mem_dummies {buf : List WChar} : ∀ {l : List Source},
    name ∈ dummies towlower r buf l → (∃ src ∈ l, Continues towlower r.truePath src.text name) ∧
      (r.query (fakePath r.truePath name)).isSome = true := by
  intro l
  induction l generalizing buf with
  | nil => exact nofun
  | cons src rest ih =>
    intro h
    have hrest : ∀ {buf}, name ∈ dummies towlower r buf rest →
        (∃ src' ∈ src :: rest, Continues towlower r.truePath src'.text name) ∧
          (r.query (fakePath r.truePath name)).isSome = true := by
      intro buf hmem
      obtain ⟨⟨src', hsrc', hleads⟩, hthere⟩ := ih hmem
      exact ⟨⟨src', .tail _ hsrc', hleads⟩, hthere⟩
    rw [dummies] at h
    split at h
    · exact hrest h
    rename_i ptr hptr
    dsimp only at h
    split at h
    · rename_i hin
      rcases mem_cons.mp h with rfl | h
      · exact ⟨⟨src, .head _, continues_iff.mpr ⟨ptr, hptr, rfl⟩⟩, hin.2⟩
      · exact hrest h
    · exact hrest h

theorem length_dummies_le {buf : List WChar} : ∀ {l : List Source},
    (dummies towlower r buf l).length ≤ l.length := by
  intro l
  induction l generalizing buf with
  | nil => exact Nat.le_refl 0
  | cons src rest ih =>
    rw [dummies, length_cons]
    split
    · exact Nat.le_succ_of_le ih
    · dsimp only
      split
      · exact Nat.succ_le_succ ih
      · exact Nat.le_succ_of_le ih

/-! ### The listing -/

theorem close_area {before : List (List WChar)} (harea : area.length = 0x8000)
    (h : Entries area 0 (before ++ [name])) :
    ∃ area', store area (behind (fun name => stride name.length) before) (ofU32 0) = some area' ∧
      area'.length = 0x8000 ∧ Entries area' 0 before ∧
        Holds area' (behind (fun name => stride name.length) before) name ∧
          u32 area' (behind (fun name => stride name.length) before) = 0 := by
  obtain ⟨hbefore, hholds, -⟩ := linked_concat.mp h
  rw [Nat.zero_add] at hholds
  have hinside := hholds.inside
  have hstore := @store_eq _ area (ofU32 0) (behind (fun name => stride name.length) before)
    (by rw [length_ofU32]; omega)
  have hlen := (length_store hstore).trans harea
  have hother : ∀ i, ¬(behind (fun name => stride name.length) before ≤ i ∧
      i < behind (fun name => stride name.length) before + 2) →
        (splice area (behind (fun name => stride name.length) before) (ofU32 0))[i]? = area[i]? :=
    fun i hi => getElem?_store_of_not_covers hstore hi
  refine ⟨_, hstore, hlen, ?_, ⟨?_, ?_, fun i hi => ?_⟩, ?_⟩
  · refine entries_congr hbefore (hlen.trans harea.symm) fun i hi => hother i ?_
    omega
  · rw [hlen, ← harea]
    exact hinside
  · rw [← hholds.length]
    refine u32_congr fun i hi => hother _ ?_
    omega
  · rw [hother _ (by omega), hholds.name i hi]
  · exact u32_of_stored (by decide) fun i hi => getElem?_store hstore hi

theorem fits_iff : (∀ src ∈ r.sources, r.mask ≠ none →
      ∀ ptr ∈ afterPath towlower r.truePath src.text, Short ptr) ∧
        FitsFrom start.infoPtr (dummies towlower r start.testBuf r.sources) ↔
    TestFits towlower r ∧ AreaFits (letIn towlower r) := by
  refine and_congr ⟨fun h hmask src hsrc => h src hsrc hmask, fun h src hsrc hmask =>
    h hmask src hsrc⟩ (forall_congr' fun before => forall_congr' fun name =>
      forall_congr' fun _ => ?_)
  rw [show start.infoPtr = 0 from rfl, Nat.zero_add]
  rfl

/-- **The code** comes to its list exactly if the stores stay in their areas, and then this is made
of the names that are let in. -/
theorem mergeDummy_spec :
    (TestFits towlower r ∧ AreaFits (letIn towlower r) → ∃ es : List (Entry (List WChar)),
        es.map Entry.name = letIn towlower r ∧ mergeDummy towlower upcase r =
          some (es.foldl (fun cache e => insertFile upcase e cache) [])) ∧
      (¬(TestFits towlower r ∧ AreaFits (letIn towlower r)) →
        mergeDummy towlower upcase r = none) := by
  obtain ⟨hyes, hno⟩ := @addSources_spec towlower r r.sources start [] filled_start
  rw [fits_iff] at hyes hno
  constructor
  · intro hfits
    obtain ⟨s, hs, hfilled⟩ := hyes hfits
    have hfilled : Filled s (letIn towlower r) := hfilled
    rcases hfilled.last with ⟨hnone, hprev⟩ | ⟨before, name, hnames, hprev⟩
    · refine ⟨[], hnone.symm, ?_⟩
      rw [mergeDummy, hs, bind_some, hprev]
      rfl
    obtain ⟨area, hstore, hlen, hbefore, hholds, hzero⟩ :=
      close_area hfilled.length (hnames ▸ hfilled.entries)
    have hfuel : before.length < r.sources.length := by
      have hle := @length_dummies_le towlower r start.testBuf r.sources
      rw [show dummies towlower r start.testBuf r.sources = before ++ [name] from hnames,
        length_append] at hle
      exact hle
    obtain ⟨es, hes, hlist⟩ := @listEntries_spec upcase area 0 before hlen name hbefore
      (by rw [Nat.zero_add]; exact hholds) (by rw [Nat.zero_add]; exact hzero) _ hfuel []
    refine ⟨es, hes.trans hnames.symm, ?_⟩
    rw [mergeDummy, hs, bind_some, hprev]
    dsimp only
    rw [hstore, bind_some, hlist]
  · intro hfits
    rw [mergeDummy, hno hfits]
    rfl

theorem mem_foldl_insertFile (es : List (Entry (List WChar))) (name : List WChar) :
    (∃ e ∈ es.foldl (fun cache e => insertFile upcase e cache) [], e.name = name) ↔
      ((es.map Entry.name).find? fun n => n.map upcase = name.map upcase) = some name := by
  rw [find?_map, map_eq_some_iff]
  refine exists_congr fun e => ?_
  rw [(foldl_insertFile es).2 e]
  constructor
  · rintro ⟨hfirst, rfl⟩
    exact ⟨hfirst, rfl⟩
  · rintro ⟨hfirst, rfl⟩
    exact ⟨hfirst, rfl⟩

/-- **When the listing is right**: the components are short enough for the test of the mask, there
is room for the names in the area, none of them is empty, and what is left behind in the buffer of
the test does not mislead the mask. -/
theorem mergeDummy_iff : Listed towlower upcase r ↔
    TestFits towlower r ∧ AreaFits (letIn towlower r) ∧ [] ∉ letIn towlower r ∧
      JudgedRight towlower upcase r := by
  obtain ⟨hyes, hno⟩ := @mergeDummy_spec towlower upcase r
  by_cases hfits : TestFits towlower r ∧ AreaFits (letIn towlower r)
  · obtain ⟨es, hes, hlist⟩ := hyes hfits
    have hsorted := (@foldl_insertFile upcase es).1
    have hmem := @mem_foldl_insertFile upcase es
    rw [hes] at hmem
    -- of each name that is let in there is the first one of its letters in the list
    have hfirst : ∀ name ∈ letIn towlower r, ∃ e ∈ es.foldl
        (fun cache e => insertFile upcase e cache) [], key upcase e = name.map upcase := by
      intro name hname
      have hsome : ((letIn towlower r).find? fun n => n.map upcase = name.map upcase).isSome :=
        find?_isSome.mpr ⟨name, hname, decide_eq_true rfl⟩
      obtain ⟨n, hn⟩ := isSome_iff_exists.mp hsome
      have hfound := find?_some hn
      have hkey : n.map upcase = name.map upcase := of_decide_eq_true hfound
      rw [← hkey] at hn
      obtain ⟨e, he, hname⟩ := (hmem n).mpr hn
      exact ⟨e, he, by rw [← hkey, ← hname]; rfl⟩
    have hlet : ∀ e ∈ es.foldl (fun cache e => insertFile upcase e cache) [],
        e.name ∈ letIn towlower r := fun e he =>
      mem_of_find?_eq_some ((hmem e.name).mp ⟨e, he, rfl⟩)
    constructor
    · rintro ⟨l, hl, -, hwanted, hall⟩
      obtain rfl := Option.some.inj (hlist.symm.trans hl)
      refine ⟨hfits.1, hfits.2, fun hnil => ?_, fun name hname => ?_, fun name hname => ?_⟩
      · obtain ⟨e, he, hkey⟩ := hfirst [] hnil
        exact (hwanted e he).ne_nil (map_eq_nil_iff.mp hkey)
      · obtain ⟨e, he, rfl⟩ := (hmem name).mpr hname
        exact (hwanted e he).fits
      · obtain ⟨e, he, hkey⟩ := hall name hname
        exact ⟨e.name, hlet e he, hkey⟩
    · rintro ⟨-, -, hnil, hjudged⟩
      refine ⟨_, hlist, hsorted, fun e he => ?_, fun name hname => ?_⟩
      · obtain ⟨hleads, hthere⟩ := mem_dummies (hlet e he)
        exact ⟨fun hempty => hnil (hempty ▸ hlet e he), hleads,
          hjudged.fits e.name ((hmem e.name).mp ⟨e, he, rfl⟩), hthere⟩
      · obtain ⟨n, hn, hkey⟩ := hjudged.wanted name hname
        obtain ⟨e, he, hename⟩ := hfirst n hn
        exact ⟨e, he, hename.trans hkey⟩
  · refine iff_of_false ?_ fun h => hfits ⟨h.1, h.2.1⟩
    rintro ⟨l, hl, -⟩
    rw [hno hfits] at hl
    cases hl

/-- As many patterns `\\a\\b`, where the true path is `\\a`. -/
def manyPatterns (count : Nat) : Request where
  truePath := wide ['\\', 'a']
  mask := none
  sources := List.replicate count ⟨wide ['\\', 'a', '\\', 'b'], by decide, by decide⟩
  query := fun _ => some ⟨0, 0, 0, 0, 0, 0, 0⟩

theorem dummies_many (count : Nat) (buf : List WChar) (n : Nat) :
    dummies id (manyPatterns count) buf (List.replicate n
      ⟨wide ['\\', 'a', '\\', 'b'], by decide, by decide⟩) = List.replicate n (wide ['b']) := by
  induction n with
  | zero => rfl
  | succ n ih =>
    rw [replicate_succ, replicate_succ, ← ih]
    rfl

theorem sum_stride (n : Nat) (name : List WChar) :
    ((List.replicate n name).map fun n => stride n.length).sum = n * stride name.length := by
  rw [map_replicate, sum_replicate_nat]

/-- The area has no room for 600 entries. -/
theorem not_listed_many : ¬Listed id id (manyPatterns 600) := by
  have hfull : ¬AreaFits (letIn id (manyPatterns 600)) := by
    intro hfits
    have hsplit : letIn id (manyPatterns 600) =
        List.replicate 482 (wide ['b']) ++ wide ['b'] :: List.replicate 117 (wide ['b']) := by
      rw [← replicate_succ, replicate_append_replicate]
      exact dummies_many 600 _ 600
    have hroom := hfits _ _ _ hsplit
    have hstride : stride (wide ['b']).length = 68 := rfl
    rw [sum_stride, hstride] at hroom
    omega
  rintro ⟨l, hl, -⟩
  rw [(@mergeDummy_spec id id (manyPatterns 600)).2 fun h => hfull h.2] at hl
  cases hl

end Sandboxie.MergeDummy
