import Sandboxie.Dll.MergeDummy
import Sandboxie.Lib.Records

/-!
# The areas of the listing that is made up

The buffer for the mask keeps a zero at its end as long as the components are short enough, and
then the change to lower case ends in it.  The entries stand in their area one behind the other: the
zero that is put too far behind a name is in front of the end of what the next entry needs, or it is
the store that leaves the area.
-/

namespace Sandboxie.MergeDummy

open Cells Text MergeCache Records List Option

variable {towlower : WChar → WChar} {m area area' buf : List WChar} {off p : Nat}

/-! ### Numbers in units of two bytes -/

@[simp] theorem length_ofU32 (n : Nat) : (ofU32 n).length = 2 := rfl

@[simp] theorem length_ofU64 (n : UInt64) : (ofU64 n).length = 4 := rfl

theorem u32_congr (h : ∀ i < 2, area'[off + i]? = area[off + i]?) :
    u32 area' off = u32 area off := by
  rw [u32, u32, getD_eq_getElem?_getD, getD_eq_getElem?_getD, getD_eq_getElem?_getD,
    getD_eq_getElem?_getD, h 1 (by decide)]
  have h0 := h 0 (by decide)
  rw [Nat.add_zero] at h0
  rw [h0]

theorem u32_of_stored {n : Nat} (hn : n < 2 ^ 32) (h : ∀ i < 2, area[off + i]? = (ofU32 n)[i]?) :
    u32 area off = n := by
  have h0 := h 0 (by decide)
  have h1 := h 1 (by decide)
  rw [Nat.add_zero] at h0
  rw [u32, getD_eq_getElem?_getD, getD_eq_getElem?_getD, h0, h1]
  show n % 2 ^ 16 + 2 ^ 16 * (n / 2 ^ 16 % 2 ^ 16) = n
  omega

/-! ### Components -/

theorem nameLen_le (ptr : List WChar) : nameLen ptr ≤ ptr.length := by
  unfold nameLen
  split
  · exact ( takeWhile_prefix _).length_le
  · exact ( takeWhile_prefix _).length_le

theorem length_name (ptr : List WChar) : (ptr.take (nameLen ptr)).length = nameLen ptr :=
  length_take_of_le (nameLen_le ptr)

theorem mem_of_mem_afterPath {truePath patstr ptr : List WChar}
    (h : afterPath towlower truePath patstr = some ptr) {c : WChar} (hc : c ∈ ptr) :
    c ∈ patstr := by
  unfold afterPath at h
  dsimp only at h
  split at h
  · rw [← Option.some.inj h] at hc
    exact mem_of_mem_drop hc
  · cases h

/-! ### The test of the mask -/

structure Ready (buf : List WChar) : Prop where
  length : buf.length = 0x800
  last : buf[0x7ff]? = some 0

theorem ready_start : Ready start.testBuf :=
  ⟨length_replicate, getElem?_replicate_of_lt (by decide)⟩

def Short (ptr : List WChar) : Prop :=
  nameLen ptr < 2047 ∨ (nameLen ptr = 2047 ∧ ptr.length = 2047)

theorem copied_split (ptr : List WChar) : ∃ c, (ptr ++ [0]).take (nameLen ptr + 1) =
    ptr.take (nameLen ptr) ++ [c] ∧ (nameLen ptr < ptr.length → c ∈ ptr) ∧
      (ptr.length = nameLen ptr → c = 0) := by
  have hle := nameLen_le ptr
  have hlt : nameLen ptr < (ptr ++ [(0 : WChar)]).length := by
    rw [length_append, length_singleton]
    omega
  refine ⟨(ptr ++ [0])[nameLen ptr], ?_, fun hin => ?_, fun hend => ?_⟩
  · rw [take_add_one, getElem?_eq_getElem hlt, toList_some,
      take_append_of_le_length hle]
  · rw [getElem_append_left hin]
    exact getElem_mem hin
  · rw [getElem_append_right (by omega)]
    simp

theorem wcslwr_eq (h : 0 ∈ buf) : wcslwr towlower buf = some (lowered towlower buf) := by
  have hnot : (fun c : WChar => !(c == 0)) = fun c => decide (c ≠ 0) := by
    funext c
    simp only [ne_eq, decide_not]
    rfl
  have hmap : wcslwr towlower buf = some ((buf.takeWhile fun c => !(c == 0)).map towlower ++
      buf.dropWhile fun c => !(c == 0)) := mapToZero_eq ⟨0, h, beq_self_eq_true _⟩
  rw [hmap, hnot]
  rfl

theorem wcslwr_none (h : 0 ∉ buf) : wcslwr towlower buf = none := by
  refine eq_none_iff_forall_not_mem.mpr fun r hr => ?_
  obtain ⟨d, hd, hzero⟩ := mapToZero_isSome_iff.mp (isSome_of_mem hr)
  exact h (beq_iff_eq.mp hzero ▸ hd)

/-- **The test of the mask** stays in its buffer exactly for a component that is short enough, and
leaves the buffer ready for the next one. -/
theorem testMask_spec (mask : List WChar → Nat → Bool) (hbuf : Ready buf) {ptr : List WChar}
    (hptr : 0 ∉ ptr) :
    (Short ptr → testMask towlower mask buf ptr =
        some (mask (string (tested towlower buf ptr)) (nameLen ptr), tested towlower buf ptr) ∧
          Ready (tested towlower buf ptr)) ∧
      (¬Short ptr → testMask towlower mask buf ptr = none) := by
  have hle := nameLen_le ptr
  have hname := length_name ptr
  obtain ⟨c, hcopy, hc, hend⟩ := copied_split ptr
  have hlen : ((ptr ++ [0]).take (nameLen ptr + 1)).length = nameLen ptr + 1 := by
    rw [hcopy, length_append, length_singleton, hname]
  unfold testMask
  by_cases hfit : nameLen ptr + 1 ≤ 0x800
  · have hfit' : 0 + ((ptr ++ [0]).take (nameLen ptr + 1)).length ≤ buf.length := by
      rw [hlen, hbuf.length]
      omega
    rw [store_eq hfit', bind_some]
    have hsplice : splice buf 0 ((ptr ++ [0]).take (nameLen ptr + 1)) =
        ptr.take (nameLen ptr) ++ (c :: buf.drop (nameLen ptr + 1)) := by
      rw [splice, hlen, hcopy, take_zero, nil_append, Nat.zero_add, append_assoc]
      rfl
    constructor
    · intro hshort
      -- there is a zero at the end, which is not covered or is copied
      have hlast : (splice buf 0 ((ptr ++ [0]).take (nameLen ptr + 1)))[0x7ff]? = some 0 := by
        rcases hshort with hshort | ⟨hshort, htotal⟩
        · rw [getElem?_splice_of_ge hfit' (by rw [hlen]; omega)]
          exact hbuf.last
        · rw [hsplice, getElem?_append_right (by omega), hname, hshort, hend (by omega)]
          rfl
      have hlower := @wcslwr_eq towlower _ (mem_of_getElem? hlast)
      refine ⟨?_, ?_, ?_⟩
      · rw [hlower]
        rfl
      · rw [tested, length_mapToZero hlower, length_splice hfit', hbuf.length]
      · exact mapToZero_zero hlower (beq_self_eq_true _) hlast
    · intro hlong
      -- the buffer is full of the component, and nothing ends it
      have hfull : nameLen ptr = 2047 ∧ ptr.length ≠ 2047 := by
        unfold Short at hlong
        omega
      have hdrop : buf.drop (nameLen ptr + 1) = [] := by
        refine drop_eq_nil_of_le ?_
        rw [hbuf.length]
        omega
      rw [wcslwr_none]
      · rfl
      · rw [hsplice, hdrop]
        intro hzero
        rcases mem_append.mp hzero with hzero | hzero
        · exact hptr (mem_of_mem_take hzero)
        · refine hptr ?_
          rw [mem_singleton.mp hzero]
          exact hc (by omega)
  · rw [store_none (by rw [hlen, hbuf.length]; omega)]
    refine ⟨fun hshort => ?_, fun _ => rfl⟩
    unfold Short at hshort
    omega

/-! ### Entries in the area -/

structure Holds (area : List WChar) (p : Nat) (name : List WChar) : Prop where
  inside : p + 52 + 2 * name.length + 1 ≤ area.length
  length : u32 area (p + 30) = 2 * name.length
  name : ∀ i < name.length, area[p + 52 + i]? = name[i]?

abbrev Entries (area : List WChar) : Nat → List (List WChar) → Prop :=
  Linked (Holds area) (fun p => u32 area p / 2) fun name => stride name.length

theorem stride_bounds (n : Nat) : 65 + n ≤ stride n ∧ stride n ≤ 69 + n := by
  have hle := Layout.le_alignUp (p := 8) (by decide) (entrySize n)
  have hge := Layout.alignUp_le 8 (entrySize n)
  have hdvd := Layout.dvd_alignUp 8 (entrySize n)
  unfold stride
  unfold entrySize at hle hge hdvd ⊢
  omega

variable {names : List (List WChar)}

theorem entries_congr (h : Entries area p names)
    (hlen : area'.length = area.length)
    (heq : ∀ i < p + behind (fun name => stride name.length) names, area'[i]? = area[i]?) :
    Entries area' p names := by
  refine h.congr fun o name ho hholds => ?_
  have hstride := stride_bounds name.length
  refine ⟨⟨hlen ▸ hholds.inside, ?_, fun i hi => ?_⟩, ?_⟩
  · rw [← hholds.length]
    exact u32_congr fun i hi => heq _ (by omega)
  · rw [heq _ (by omega), hholds.name i hi]
  · rw [u32_congr fun i hi => heq _ (by omega)]

theorem entryStores_from (p : Nat) (name : List WChar) (info : NetworkOpenInformation) :
    ∀ s ∈ entryStores p name info, p ≤ s.1 ∧ s.1 + s.2.length ≤ p + 52 + 2 * name.length + 1 := by
  simp only [entryStores, forall_mem_cons, length_ofU32, length_ofU64, length_singleton]
  refine ⟨?_, ?_, ?_, ?_, ?_, ?_, ?_, ?_, ?_, ?_, ?_, ?_, ?_, nofun⟩ <;> omega

/-- **One entry** stays in the area exactly if the zero that is put too far behind its name does,
and then it is there and what is in front of it stays. -/
theorem storeAll_entry (area : List WChar) (p : Nat) (name : List WChar)
    (info : NetworkOpenInformation) (harea : area.length = 0x8000) :
    (p + 52 + 2 * name.length + 1 ≤ 0x8000 → ∃ area', storeAll area (entryStores p name info) =
        some area' ∧ area'.length = 0x8000 ∧ Holds area' p name ∧
          u32 area' p / 2 = stride name.length ∧ ∀ i < p, area'[i]? = area[i]?) ∧
      (¬p + 52 + 2 * name.length + 1 ≤ 0x8000 →
        storeAll area (entryStores p name info) = none) := by
  have hbounds := entryStores_from p name info
  constructor
  · intro hfit
    have hsome := storeAll_isSome_iff.mpr fun s hs =>
      show s.1 + s.2.length ≤ area.length by have hs := hbounds s hs; omega
    obtain ⟨area', harea'⟩ := isSome_iff_exists.mp hsome
    have hlen := (length_storeAll harea').trans harea
    have hstride := stride_bounds name.length
    refine ⟨area', harea', hlen, ⟨by omega, ?_, fun i hi => ?_⟩, ?_, fun i hi => ?_⟩
    · refine u32_of_stored (by omega) fun i hi => ?_
      refine getElem?_storeAll_of_last [] _ harea' hi ?_
      simp only [forall_mem_cons, Covers, length_ofU32, length_ofU64, length_singleton]
      refine ⟨?_, ?_, ?_, ?_, ?_, ?_, ?_, ?_, ?_, ?_, ?_, ?_, nofun⟩ <;> omega
    · refine getElem?_storeAll_of_last [(p + 30, ofU32 (2 * name.length))] _ harea' hi ?_
      simp only [forall_mem_cons, Covers, length_ofU32, length_ofU64, length_singleton]
      refine ⟨?_, ?_, ?_, ?_, ?_, ?_, ?_, ?_, ?_, ?_, ?_, nofun⟩ <;> omega
    · have hnext : u32 area' p = 2 * stride name.length := by
        refine u32_of_stored (by omega) fun i hi => ?_
        exact getElem?_storeAll_of_last (entryStores p name info).dropLast [] harea' hi nofun
      rw [hnext]
      omega
    · refine getElem?_storeAll_of_not_covers harea' fun s hs hcovers => ?_
      have hs := (hbounds s hs).1
      have hcovers := hcovers.1
      omega
  · intro hfull
    refine not_isSome_iff_eq_none.mp fun hsome => hfull ?_
    have hstray := storeAll_isSome_iff.mp hsome (p + 52 + 2 * name.length, [0])
      (.tail _ (.tail _ (.head _)))
    rw [harea] at hstray
    exact hstray

/-! ### The loop over the patterns -/

/-- The area has the entries of some names, and the buffer is ready. -/
structure Filled (s : State) (names : List (List WChar)) : Prop where
  length : s.infoArea.length = 0x8000
  entries : Entries s.infoArea 0 names
  infoPtr_eq : s.infoPtr = behind (fun name => stride name.length) names
  last : names = [] ∧ s.prevEntry = none ∨ ∃ before name, names = before ++ [name] ∧
    s.prevEntry = some (behind (fun name => stride name.length) before)
  ready : Ready s.testBuf

theorem filled_start : Filled start [] :=
  ⟨length_replicate, trivial, rfl, .inl ⟨rfl, rfl⟩, ready_start⟩

theorem Filled.withBuf {s : State} (h : Filled s names)
    (hbuf : Ready buf) : Filled { s with testBuf := buf } names :=
  ⟨h.length, h.entries, h.infoPtr_eq, h.last, hbuf⟩

theorem addEntry_spec {s : State} (h : Filled s names)
    (name : List WChar) (info : NetworkOpenInformation) :
    (s.infoPtr + 52 + 2 * name.length + 1 ≤ 0x8000 →
        ∃ s', addEntry s name info = some s' ∧ Filled s' (names ++ [name]) ∧
          s'.infoPtr = s.infoPtr + stride name.length ∧ s'.testBuf = s.testBuf) ∧
      (¬s.infoPtr + 52 + 2 * name.length + 1 ≤ 0x8000 → addEntry s name info = none) := by
  obtain ⟨hfits, hfull⟩ := storeAll_entry s.infoArea s.infoPtr name info h.length
  unfold addEntry
  constructor
  · intro hfit
    obtain ⟨area', harea', hlen, hholds, hnext, hframe⟩ := hfits hfit
    have hptr := h.infoPtr_eq
    refine ⟨⟨area', s.testBuf, s.infoPtr + stride name.length, some s.infoPtr⟩,
      by rw [harea']; rfl, ⟨hlen, ?_, ?_, ?_, h.ready⟩, rfl, rfl⟩
    · have hold := entries_congr h.entries (hlen.trans h.length.symm) fun i hi =>
        hframe i (by omega)
      refine linked_concat.mpr ⟨hold, ?_, ?_⟩
      · rw [Nat.zero_add, ← hptr]
        exact hholds
      · rw [Nat.zero_add, ← hptr]
        exact hnext
    · rw [behind_concat, ← hptr]
    · exact .inr ⟨names, name, rfl, by rw [← hptr]⟩
  · intro hnofit
    rw [hfull hnofit]
    rfl

/-- `AreaFits` from a place on. -/
def FitsFrom (p : Nat) (names : List (List WChar)) : Prop :=
  ∀ before name behind, names = before ++ name :: behind →
    p + (before.map fun n => stride n.length).sum + 52 + 2 * name.length + 1 ≤ 0x8000

theorem fitsFrom_nil (p : Nat) : FitsFrom p [] :=
  fun _ _ _ h => by simp at h

theorem fitsFrom_cons {name : List WChar} :
    FitsFrom p (name :: names) ↔
      p + 52 + 2 * name.length + 1 ≤ 0x8000 ∧ FitsFrom (p + stride name.length) names := by
  constructor
  · intro h
    refine ⟨h [] name names rfl, fun before n behind hsplit => ?_⟩
    have hn := h (name :: before) n behind (by rw [hsplit]; rfl)
    rw [map_cons, sum_cons, ← Nat.add_assoc] at hn
    exact hn
  · rintro ⟨hfirst, hrest⟩ before n behind hsplit
    cases before with
    | nil =>
      cases hsplit
      exact hfirst
    | cons b before =>
      cases hsplit
      rw [map_cons, sum_cons, ← Nat.add_assoc]
      exact hrest before n behind rfl

variable {r : Request}

theorem matchMask_spec (hbuf : Ready buf) {ptr : List WChar} (hptr : 0 ∉ ptr) :
    ((r.mask ≠ none → Short ptr) →
        matchMask towlower r.mask buf ptr = some (judged towlower r.mask buf ptr) ∧
          Ready (judged towlower r.mask buf ptr).2) ∧
      (¬(r.mask ≠ none → Short ptr) → matchMask towlower r.mask buf ptr = none) := by
  cases hmask : r.mask with
  | none => exact ⟨fun _ => ⟨rfl, hbuf⟩, fun h => absurd (fun hne => absurd rfl hne) h⟩
  | some m =>
    obtain ⟨hshort, hlong⟩ := @testMask_spec towlower buf m hbuf ptr hptr
    exact ⟨fun h => hshort (h nofun), fun h => hlong fun hs => h fun _ => hs⟩

/-- **The loop over the patterns** stays in the areas exactly if the components are short enough for
the test of the mask and there is room for the names, and then the area has these. -/
theorem addSources_spec : ∀ (l : List Source) {s : State} {names : List (List WChar)},
    Filled s names →
      (((∀ src ∈ l, r.mask ≠ none → ∀ ptr ∈ afterPath towlower r.truePath src.text, Short ptr) ∧
          FitsFrom s.infoPtr (dummies towlower r s.testBuf l)) →
        ∃ s', addSources towlower r l s = some s' ∧
          Filled s' (names ++ dummies towlower r s.testBuf l)) ∧
      (¬((∀ src ∈ l, r.mask ≠ none → ∀ ptr ∈ afterPath towlower r.truePath src.text, Short ptr) ∧
          FitsFrom s.infoPtr (dummies towlower r s.testBuf l)) →
        addSources towlower r l s = none) := by
  intro l
  induction l with
  | nil =>
    intro s names h
    refine ⟨fun _ => ⟨s, rfl, ?_⟩, fun hn => absurd ⟨nofun, fitsFrom_nil _⟩ hn⟩
    rw [dummies, append_nil]
    exact h
  | cons src rest ih =>
    intro s names h
    rw [addSources, addSource, dummies, forall_mem_cons]
    cases hptr : afterPath towlower r.truePath src.text with
    | none =>
      obtain ⟨hyes, hno⟩ := ih h
      exact ⟨fun hc => hyes ⟨hc.1.2, hc.2⟩, fun hc => hno fun hc' => hc ⟨⟨nofun, hc'.1⟩, hc'.2⟩⟩
    | some ptr =>
      have hclean : 0 ∉ ptr := fun hzero => src.noNul (mem_of_mem_afterPath hptr hzero)
      obtain ⟨hshort, hlong⟩ := @matchMask_spec towlower _ r h.ready ptr hclean
      by_cases hs : r.mask ≠ none → Short ptr
      · obtain ⟨hmatch, hready⟩ := hshort hs
        have hbuf := h.withBuf hready
        have hfirst : r.mask ≠ none → ∀ ptr' ∈ some ptr, Short ptr' := by
          rintro hmask ptr' ⟨⟩
          exact hs hmask
        dsimp only
        rw [hmatch, bind_some]
        -- the component is let in and exists, or it leaves only the buffer behind
        by_cases hin : (judged towlower r.mask s.testBuf ptr).1 = true
        · rw [if_pos hin]
          cases hquery : r.query (fakePath r.truePath (ptr.take (nameLen ptr))) with
          | none =>
            rw [if_neg fun hc => nomatch hc.2]
            obtain ⟨hyes, hno⟩ := ih hbuf
            exact ⟨fun hc => hyes ⟨hc.1.2, hc.2⟩,
              fun hc => hno fun hc' => hc ⟨⟨hfirst, hc'.1⟩, hc'.2⟩⟩
          | some info =>
            rw [if_pos ⟨hin, rfl⟩, fitsFrom_cons]
            obtain ⟨hroom, hfull⟩ := addEntry_spec hbuf (ptr.take (nameLen ptr)) info
            dsimp only
            by_cases hfit : s.infoPtr + 52 + 2 * (ptr.take (nameLen ptr)).length + 1 ≤ 0x8000
            · obtain ⟨s', hs', hfilled, hnext, hleft⟩ := hroom hfit
              rw [hs', bind_some, append_cons]
              obtain ⟨hyes, hno⟩ := ih hfilled
              rw [hnext, hleft] at hyes hno
              exact ⟨fun hc => hyes ⟨hc.1.2, hc.2.2⟩,
                fun hc => hno fun hc' => hc ⟨⟨hfirst, hc'.1⟩, hfit, hc'.2⟩⟩
            · rw [hfull hfit]
              exact ⟨fun hc => absurd hc.2.1 hfit, fun _ => rfl⟩
        · rw [if_neg hin, if_neg fun hc => hin hc.1]
          obtain ⟨hyes, hno⟩ := ih hbuf
          exact ⟨fun hc => hyes ⟨hc.1.2, hc.2⟩,
            fun hc => hno fun hc' => hc ⟨⟨hfirst, hc'.1⟩, hc'.2⟩⟩
      · dsimp only
        rw [hlong hs]
        exact ⟨fun hc => absurd (fun hmask => hc.1.1 hmask ptr rfl) hs, fun _ => rfl⟩

end Sandboxie.MergeDummy
