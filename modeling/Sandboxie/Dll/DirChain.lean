import Sandboxie.Dll.DirOutput
import Sandboxie.Lib.Records

/-!
# The chain of entries that is put into the buffer

The fields of each structure stand behind `NextEntryOffset` and in front of the name, and the
name begins two bytes or more in front of the structure's end.  So an entry is inside of the
buffer as soon as the check for room lets it pass, and what was written in front of it stays.  Only
the rounding of `NextEntryOffset` can pass the end: `IoStatusBlock->Information` is then more than
`Length`.
-/

namespace Sandboxie.DirOutput

open Bytes Layout Records List

variable {s : Shape} {b b' : List UInt8} {e : Entry} {es written rest : List Entry}
  {off prev next length : Nat}

/-! ### The structures -/

/-- The fields stand behind each other between `NextEntryOffset` and the name, and come from
inside of the source. -/
structure Shape.Laid (s : Shape) : Prop where
  stacked : Stacked id 4 (s.fields.map fun f => (f.target, f.size)) s.nameOffset
  source : ∀ f ∈ s.fields, f.source + f.size ≤ 104
  room : s.nameOffset + 2 ≤ s.entryLength
  small : s.nameOffset ≤ 104

theorem laid {cls : FileInformationClass} (h : shape cls = some s) : s.Laid := by
  cases cls <;> cases h <;>
    exact ⟨by simp only [List.map, cons_append, nil_append, Stacked, id]; decide,
      by decide, by decide, by decide⟩

theorem Shape.Laid.four_le (h : s.Laid) : 4 ≤ s.nameOffset := h.stacked.le

theorem le_padded (s : Shape) (e : Entry) : s.nameOffset + e.name.length ≤ padded s e :=
  le_alignUp (by decide) _

theorem Shape.Laid.padded_pos (h : s.Laid) (e : Entry) : 0 < padded s e := by
  have hfour := h.four_le
  have hle := le_padded s e
  omega

/-! ### One entry -/

theorem length_part {f : Field} (h : f.source + f.size ≤ 104) (e : Entry) :
    ((e.head.drop f.source).take f.size).length = f.size := by
  rw [length_take, length_drop, e.head_length]
  omega

theorem stacked_stores {fs : List Field} {lo hi : Nat} (e : Entry) (base : Nat)
    (hsource : ∀ f ∈ fs, f.source + f.size ≤ 104)
    (h : Stacked id lo (fs.map fun f => (f.target, f.size)) hi) :
    Stacked List.length (base + lo)
      (fs.map fun f => (base + f.target, (e.head.drop f.source).take f.size)) (base + hi) := by
  induction fs generalizing lo with
  | nil => exact Nat.add_le_add_left h base
  | cons f fs ih =>
    obtain ⟨hlo, hrest⟩ := h
    have hrest := ih (fun g hg => hsource g (.tail _ hg)) hrest
    refine ⟨Nat.add_le_add_left hlo base, ?_⟩
    rw [length_part (hsource f (.head _)) e, Nat.add_assoc]
    exact hrest

theorem stacked_fixedStores (hs : s.Laid) (e : Entry) (next : Nat) :
    Stacked List.length next (fixedStores s e next) (next + s.nameOffset) :=
  ⟨Nat.le_refl _, stacked_stores e next hs.source hs.stacked⟩

theorem alignNext_spec (hfit : next + 4 ≤ b.length) (hsmall : u32 b next + 8 < 2 ^ 32) :
    ∃ b', alignNext b next = some b' ∧ b'.length = b.length ∧
      u32 b' next = alignUp 8 (u32 b next) ∧
        ∀ i, i < next ∨ next + 4 ≤ i → byteAt b' i = byteAt b i := by
  by_cases htmp : u32 b next % 8 = 0
  · refine ⟨b, ?_, rfl, ?_, fun _ _ => rfl⟩
    · rw [alignNext, if_neg (fun h => h htmp)]
    · rw [alignUp_of_dvd (by decide) (Nat.dvd_of_mod_eq_zero htmp)]
  have hfit' : next + (ofU32 (u32 b next + (8 - u32 b next % 8))).length ≤ b.length := hfit
  refine ⟨_, ?_, length_splice hfit', ?_, ?_⟩
  · rw [alignNext, if_pos htmp, store_eq hfit']
  · have hword : u32 (splice b next (ofU32 (u32 b next + (8 - u32 b next % 8)))) (next + 0) =
        u32 (ofU32 (u32 b next + (8 - u32 b next % 8))) 0 :=
      u32_splice_of_mem (by omega) (Nat.le_refl 4)
    rw [Nat.add_zero, u32_ofU32 (by omega)] at hword
    rw [hword, alignUp]
    omega
  · intro i hi
    rcases hi with hi | hi
    · exact byteAt_splice_of_lt (by omega) hi
    · exact byteAt_splice_of_ge hfit' hi

theorem copiedLength_le_name (s : Shape) (length next : Nat) (e : Entry) :
    copiedLength s length next e ≤ e.name.length := by
  simp only [copiedLength]
  split
  · exact Nat.sub_le _ _
  · exact Nat.le_refl _

theorem copiedLength_inside (hs : s.Laid) (e : Entry) (hroom : next + s.entryLength ≤ length + 2) :
    next + s.nameOffset + copiedLength s length next e ≤ length := by
  have hname := hs.room
  simp only [copiedLength]
  split <;> omega

theorem copiedLength_lt_iff (hs : s.Laid) (e : Entry) (hroom : next + s.entryLength ≤ length + 2) :
    copiedLength s length next e < e.name.length ↔
      length < next + (s.entryLength - 2) + e.name.length := by
  have hname := hs.room
  simp only [copiedLength]
  split <;> omega

/-- **One entry.**  Where there is room for the fixed part every store is inside of the buffer,
what is in front of the entry stays, and an entry whose name is copied whole is there. -/
theorem putEntry_spec (hs : s.Laid) (e : Entry) (hroom : next + s.entryLength ≤ b.length + 2) :
    ∃ b', putEntry s b next e = some b' ∧ b'.length = b.length ∧ u32 b' next = padded s e ∧
      (∀ i < next, byteAt b' i = byteAt b i) ∧
        (¬ copiedLength s b.length next e < e.name.length → Holds s b' next e) := by
  have hname := hs.room
  have hfour := hs.four_le
  have hsmall := hs.small
  have hshort := e.short
  have hinside := copiedLength_inside hs e hroom
  -- the fixed part
  obtain ⟨b₁, hb₁, hlen₁, hstores, hframe₁⟩ :=
    storeAll_spec (stacked_fixedStores hs e next) (show next + s.nameOffset ≤ b.length by omega)
  have hnext : u32 b₁ next = s.nameOffset + e.name.length := by
    rw [← u32_ofU32 (show s.nameOffset + e.name.length < 2 ^ 32 by omega)]
    refine u32_congr fun i hi => ?_
    rw [Nat.zero_add]
    exact hstores _ (.head _) i hi
  -- its alignment
  obtain ⟨b₂, hb₂, hlen₂, hword, hframe₂⟩ :=
    alignNext_spec (show next + 4 ≤ b₁.length by omega) (by omega)
  have htake : (e.name.take (copiedLength s b.length next e)).length =
      copiedLength s b.length next e :=
    length_take_of_le (copiedLength_le_name s b.length next e)
  have hfit : next + s.nameOffset + (e.name.take (copiedLength s b.length next e)).length ≤
      b₂.length := by omega
  have hbefore : ∀ i < next + s.nameOffset,
      byteAt (splice b₂ (next + s.nameOffset) (e.name.take (copiedLength s b.length next e))) i =
        byteAt b₂ i :=
    fun i hi => byteAt_splice_of_lt (by omega) hi
  refine ⟨splice b₂ (next + s.nameOffset) (e.name.take (copiedLength s b.length next e)), ?_, ?_,
    ?_, ?_, fun hwhole => ⟨?_, ?_, ?_⟩⟩
  · rw [putEntry, hb₁, Option.bind_some, hb₂, Option.bind_some, store_eq hfit]
  · rw [length_splice hfit, hlen₂, hlen₁]
  · rw [padded, ← hnext, ← hword]
    exact u32_congr fun i hi => hbefore _ (by omega)
  · intro i hi
    rw [hbefore i (by omega), hframe₂ i (.inl hi), hframe₁ i (.inl hi)]
  · rw [length_splice hfit, hlen₂, hlen₁]
    omega
  · intro f hf i hi
    have hmem : (next + f.target, (e.head.drop f.source).take f.size) ∈ fixedStores s e next :=
      .tail _ (mem_map.mpr ⟨f, hf, rfl⟩)
    have hin := (stacked_stores e next hs.source hs.stacked).within _ (mem_map_of_mem hf)
    rw [length_part (hs.source f hf)] at hin
    rw [hbefore _ (by omega), hframe₂ _ (.inr (by omega)),
      hstores _ hmem i (by rw [length_part (hs.source f hf)]; exact hi), byteAt_part e.head hi]
  · intro i hi
    have heq : copiedLength s b.length next e = e.name.length :=
      Nat.le_antisymm (copiedLength_le_name s b.length next e) (by omega)
    rw [heq, take_length] at hfit ⊢
    exact byteAt_splice_of_mem (by omega) hi

/-! ### Entries behind each other -/

abbrev Entries (s : Shape) (b : List UInt8) : Nat → List Entry → Prop :=
  Linked (Holds s b) (u32 b) (padded s)

theorem offsetBehind_eq (s : Shape) (es : List Entry) : offsetBehind s es = behind (padded s) es :=
  rfl

theorem offsetBehind_cons (s : Shape) (e : Entry) (es : List Entry) :
    offsetBehind s (e :: es) = padded s e + offsetBehind s es := rfl

theorem Holds.congr (h : Holds s b off e) (hs : s.Laid) (hlen : b'.length = b.length)
    (heq : ∀ i, off + 4 ≤ i → i < off + s.nameOffset + e.name.length → byteAt b' i = byteAt b i) :
    Holds s b' off e := by
  refine ⟨hlen ▸ h.inside, fun f hf i hi => ?_, fun i hi => ?_⟩
  · have hin := (stacked_stores e off hs.source hs.stacked).within _ (mem_map_of_mem hf)
    rw [length_part (hs.source f hf)] at hin
    rw [heq _ (by omega) (by omega), h.fields f hf i hi]
  · have hfour := hs.four_le
    rw [heq _ (by omega) (by omega), h.name i hi]

theorem entries_congr (h : Entries s b off es) (hs : s.Laid) (hlen : b'.length = b.length)
    (heq : ∀ i < off + offsetBehind s es, byteAt b' i = byteAt b i) : Entries s b' off es := by
  have hfour := hs.four_le
  refine h.congr fun o e ho hholds => ?_
  have hpad := le_padded s e
  rw [← offsetBehind_eq] at ho
  exact ⟨hholds.congr hs hlen fun i _ hi => heq i (by omega),
    u32_congr fun i hi => heq _ (by omega)⟩

theorem chain_of_entries (hs : s.Laid) (h : Entries s b off es)
    (hholds : Holds s b (off + offsetBehind s es) e)
    (hzero : u32 b (off + offsetBehind s es) = 0) : Chain s b off (es ++ [e]) := by
  induction es generalizing off with
  | nil => exact .last hholds hzero
  | cons d es ih =>
    obtain ⟨hd, hword, hrest⟩ := h
    rw [offsetBehind_cons, ← Nat.add_assoc] at hholds hzero
    refine .next hd ?_ ?_ ?_
    · rw [hword]
      exact hs.padded_pos d
    · rw [hword]
      exact dvd_alignUp 8 _
    · rw [hword]
      exact ih hrest hholds hzero

/-! ### The loop -/

/-- What the loop has written, with the last entry at `prev` and the next one at `next`. -/
structure Reached (s : Shape) (b : List UInt8) (written : List Entry) (prev next : Nat) :
    Prop where
  linked : Entries s b 0 written
  next_eq : next = offsetBehind s written
  last : written = [] ∧ prev = 0 ∨ ∃ es e, written = es ++ [e] ∧ prev = offsetBehind s es

theorem reached_nil (s : Shape) (b : List UInt8) : Reached s b [] 0 0 :=
  ⟨trivial, rfl, .inl ⟨rfl, rfl⟩⟩

theorem Reached.eq_nil_iff (h : Reached s b written prev next) (hs : s.Laid) :
    next = 0 ↔ written = [] := by
  constructor
  · intro hzero
    rcases h.last with ⟨hnil, -⟩ | ⟨es, e, rfl, -⟩
    · exact hnil
    · have hpos := hs.padded_pos e
      have heq := h.next_eq
      rw [offsetBehind_eq, behind_concat] at heq
      omega
  · rintro rfl
    exact h.next_eq

theorem Reached.prev_inside (h : Reached s b written prev next) (hs : s.Laid)
    (hroom : s.entryLength ≤ b.length) : prev + 4 ≤ b.length := by
  have hfour := hs.four_le
  have hname := hs.room
  rcases h.last with ⟨-, rfl⟩ | ⟨es, e, rfl, rfl⟩
  · omega
  · have hinside := (linked_concat.mp h.linked).2.1.inside
    rw [← offsetBehind_eq] at hinside
    omega

theorem Reached.frame (h : Reached s b written prev next) (hs : s.Laid)
    (hlen : b'.length = b.length) (hframe : ∀ i < next, byteAt b' i = byteAt b i) :
    Reached s b' written prev next := by
  have heq := h.next_eq
  exact ⟨entries_congr h.linked hs hlen fun i hi => hframe i (by omega), heq, h.last⟩

theorem Reached.put (h : Reached s b written prev next) (hs : s.Laid)
    (hlen : b'.length = b.length) (hframe : ∀ i < next, byteAt b' i = byteAt b i)
    (hholds : Holds s b' next e) (hword : u32 b' next = padded s e) :
    Reached s b' (written ++ [e]) next (next + padded s e) := by
  have heq := h.next_eq
  have hold := (h.frame hs hlen hframe).linked
  have hzero : 0 + behind (padded s) written = next := by
    rw [heq, Nat.zero_add]
    rfl
  refine ⟨linked_concat.mpr ⟨hold, ?_, ?_⟩, ?_, .inr ⟨written, e, rfl, heq⟩⟩
  · rwa [hzero]
  · rwa [hzero]
  · rw [offsetBehind_eq, behind_concat, heq]
    rfl

theorem Reached.finish (h : Reached s b written prev next) (hs : s.Laid)
    (hroom : s.entryLength ≤ b.length) (status : Status) (rest : List Entry) :
    ∃ b', finish b prev next status rest = some ⟨status, some next, b', rest⟩ ∧
      b'.length = b.length ∧ (written ≠ [] → Chain s b' 0 written) := by
  have hprev := h.prev_inside hs hroom
  have hfit : prev + (ofU32 0).length ≤ b.length := hprev
  refine ⟨splice b prev (ofU32 0), ?_, length_splice hfit, fun hne => ?_⟩
  · rw [DirOutput.finish, store_eq hfit]
    rfl
  rcases h.last with ⟨hnil, -⟩ | ⟨es, e, rfl, rfl⟩
  · exact absurd hnil hne
  · obtain ⟨hlinked, hholds, -⟩ := linked_concat.mp h.linked
    rw [Nat.zero_add] at hholds
    have hlink : Entries s (splice b (offsetBehind s es) (ofU32 0)) 0 es :=
      entries_congr hlinked hs (length_splice hfit) fun i hi =>
        byteAt_splice_of_lt (by omega) (by omega)
    refine chain_of_entries hs hlink ?_ ?_
    · rw [Nat.zero_add]
      exact hholds.congr hs (length_splice hfit) fun i hi _ => byteAt_splice_of_ge hfit hi
    · rw [Nat.zero_add]
      have hword : u32 (splice b (offsetBehind s es) (ofU32 0)) (offsetBehind s es + 0) =
          u32 (ofU32 0) 0 := u32_splice_of_mem (by omega) (Nat.le_refl 4)
      rwa [Nat.add_zero, u32_ofU32 (by decide)] at hword

/-! ### Where the offsets end -/

/-- `RoundsInside` from an offset on. -/
def RoundsFrom (s : Shape) (length : Nat) (single : Bool) (next : Nat) (entries : List Entry) :
    Prop :=
  ∀ before e behind, entries = before ++ e :: behind →
    (before ≠ [] → single = false ∧ next + offsetBehind s before + s.entryLength ≤ length) →
      next + offsetBehind s before + (s.entryLength - 2) + e.name.length ≤ length →
        next + offsetBehind s before + padded s e ≤ length

theorem roundsFrom_nil (s : Shape) (length : Nat) (single : Bool) (next : Nat) :
    RoundsFrom s length single next [] := by
  intro before e behind hsplit
  exact absurd hsplit.symm (by simp)

theorem roundsFrom_cons {single : Bool} : RoundsFrom s length single next (e :: rest) ↔
    (next + (s.entryLength - 2) + e.name.length ≤ length → next + padded s e ≤ length) ∧
      (single = false → next + padded s e + s.entryLength ≤ length →
        RoundsFrom s length single (next + padded s e) rest) := by
  constructor
  · intro h
    refine ⟨h [] e rest rfl (fun hne => absurd rfl hne), ?_⟩
    intro hsingle hgo before d behind hsplit hbefore hroom
    have hd := h (e :: before) d behind (by rw [hsplit]; rfl)
    rw [offsetBehind_cons, ← Nat.add_assoc] at hd
    refine hd (fun _ => ⟨hsingle, ?_⟩) hroom
    by_cases hnil : before = []
    · rw [hnil]
      exact hgo
    · exact (hbefore hnil).2
  · rintro ⟨hfirst, hrest⟩ before d behind hsplit hbefore hroom
    cases before with
    | nil =>
      cases hsplit
      exact hfirst hroom
    | cons e' before =>
      cases hsplit
      obtain ⟨hsingle, hgo⟩ := hbefore (cons_ne_nil _ _)
      rw [offsetBehind_cons, ← Nat.add_assoc] at hgo hroom ⊢
      exact hrest hsingle (by omega) before d behind rfl
        (fun hne => ⟨hsingle, hgo⟩) hroom

theorem roundsFrom_of_lt {single : Bool}
    (h : length < next + (s.entryLength - 2) + e.name.length) :
    RoundsFrom s length single next (e :: rest) := by
  have hpad := le_padded s e
  refine roundsFrom_cons.mpr ⟨fun hroom => ?_, fun _ hgo => ?_⟩
  · omega
  · omega

/-! ### A run of the loop -/

/-- **A run of the loop** stays in the buffer and leaves a chain of what it wrote; its
`Information` is inside of the buffer exactly if each offset that is rounded up is. -/
theorem mergeLoop_spec (hs : s.Laid) (single : Bool) (failure : Option Nat)
    (entries : List Entry) (h : Reached s b written prev next)
    (hroom : next + s.entryLength ≤ b.length) :
    ∃ a, mergeLoop s single failure entries prev next b = some a ∧ a.buffer.length = b.length ∧
      ((∀ n ∈ a.information, n ≤ b.length) ↔ RoundsFrom s b.length single next entries) ∧
        (a.status = .success → ∃ w, written ++ entries = w ++ a.rest ∧ Chain s a.buffer 0 w) := by
  induction entries generalizing written prev next b with
  | nil =>
    have hfits : (∀ n ∈ some next, n ≤ b.length) ↔ RoundsFrom s b.length single next [] :=
      iff_of_true (by rintro n ⟨⟩; omega) (roundsFrom_nil s b.length single next)
    cases failure with
    | some code => exact ⟨_, rfl, rfl, hfits, nofun⟩
    | none =>
      obtain ⟨b', hb', hlen, hchain⟩ :=
        h.finish hs (by omega) (if next = 0 then .noMoreFiles else .success) []
      refine ⟨_, hb', hlen, hfits, fun hsuccess => ⟨written, rfl, hchain fun hnil => ?_⟩⟩
      rw [if_pos ((h.eq_nil_iff hs).mpr hnil)] at hsuccess
      cases hsuccess
  | cons e rest ih =>
    have hshape := hs.room
    have hpad := le_padded s e
    rw [mergeLoop]
    by_cases hfull : b.length < next + (s.entryLength - 2 + if next ≠ 0 then e.name.length else 0)
    · -- no room for this one: the chain ends at the one in front of it
      have hne : next ≠ 0 := by
        rintro rfl
        simp only [ne_eq, not_true_eq_false, if_false] at hfull
        omega
      rw [if_pos hne] at hfull
      obtain ⟨b', hb', hlen, hchain⟩ :=
        h.finish hs (by omega) (if next = 0 then .bufferOverflow else .success) (e :: rest)
      refine ⟨⟨if next = 0 then .bufferOverflow else .success, some next, b', e :: rest⟩, ?_, hlen,
        ?_, fun _ => ⟨written, rfl, hchain fun hnil => hne ((h.eq_nil_iff hs).mpr hnil)⟩⟩
      · rw [if_pos hne, if_pos hfull]
        exact hb'
      · exact iff_of_true (by rintro n ⟨⟩; omega) (roundsFrom_of_lt (by omega))
    · have hfixed : next + s.entryLength ≤ b.length + 2 := by omega
      obtain ⟨b₁, hb₁, hlen₁, hword, hframe, hwhole⟩ := putEntry_spec hs e hfixed
      rw [if_neg hfull, hb₁, Option.bind_some]
      by_cases hpart : copiedLength s b.length next e < e.name.length
      · -- the first one, with a part of its name
        obtain ⟨b₂, hb₂, hlen₂, -⟩ := (h.frame hs hlen₁ hframe).finish hs (by omega)
          .bufferOverflow (e :: rest)
        refine ⟨⟨.bufferOverflow, some next, b₂, e :: rest⟩, ?_, hlen₂.trans hlen₁, ?_, nofun⟩
        · rw [if_pos hpart]
          exact hb₂
        · have hlt := (copiedLength_lt_iff hs e (by omega)).mp hpart
          exact iff_of_true (by rintro n ⟨⟩; omega) (roundsFrom_of_lt hlt)
      · have hfit : next + (s.entryLength - 2) + e.name.length ≤ b.length :=
          Nat.not_lt.mp fun hlt => hpart ((copiedLength_lt_iff hs e (by omega)).mpr hlt)
        have hput := h.put hs hlen₁ hframe (hwhole hpart) hword
        rw [if_neg hpart, hword]
        by_cases hstop : (single || decide (b₁.length < next + padded s e + s.entryLength)) = true
        · -- the last one: here `Information` can be past the end
          obtain ⟨b₂, hb₂, hlen₂, hchain⟩ := hput.finish hs (by omega) .success rest
          refine ⟨⟨.success, some (next + padded s e), b₂, rest⟩, ?_, hlen₂.trans hlen₁, ?_,
            fun _ => ⟨written ++ [e], ?_, hchain ?_⟩⟩
          · rw [if_pos hstop]
            exact hb₂
          · rw [roundsFrom_cons]
            constructor
            · intro hinfo
              refine ⟨fun _ => hinfo _ rfl, fun hsingle hgo => ?_⟩
              rw [hsingle, Bool.false_or, decide_eq_true_iff] at hstop
              omega
            · rintro ⟨hfirst, -⟩ n ⟨⟩
              exact hfirst hfit
          · rw [append_assoc]
            rfl
          · simp
        · rw [Bool.or_eq_true, not_or, Bool.not_eq_true, decide_eq_true_iff, Nat.not_lt] at hstop
          obtain ⟨a, ha, hlen, hinfo, hchain⟩ := ih hput hstop.2
          rw [hlen₁] at hlen hinfo hstop
          refine ⟨a, ?_, hlen, hinfo.trans ?_, ?_⟩
          · rw [if_neg (by rw [hstop.1, Bool.false_or, decide_eq_true_iff]; omega)]
            exact ha
          · rw [roundsFrom_cons]
            exact ⟨fun hrest => ⟨fun _ => by omega, fun _ _ => hrest⟩,
              fun hall => hall.2 hstop.1 hstop.2⟩
          · intro hsuccess
            obtain ⟨w, hw, hc⟩ := hchain hsuccess
            exact ⟨w, by rw [← hw, append_assoc]; rfl, hc⟩

/-! ### The whole call -/

theorem roundsInside_iff {single : Bool} :
    RoundsInside s length single es ↔ RoundsFrom s length single 0 es := by
  simp only [RoundsInside, RoundsFrom, Nat.zero_add]

/-- **When the buffer is well-formed**: each offset that is rounded up has to stay inside of it.
The stores and the chain are right on every input. -/
theorem wellFormed_iff (cls : FileInformationClass) (buffer : List UInt8) (single : Bool)
    (entries : List Entry) (failure : Option Nat) :
    WellFormed cls buffer.length entries
        (getMergedInformation cls buffer single entries failure) ↔
      ∀ s, shape cls = some s → s.entryLength ≤ buffer.length →
        RoundsInside s buffer.length single entries := by
  rw [getMergedInformation]
  cases hcls : shape cls with
  | none => exact iff_of_true ⟨_, rfl, rfl, nofun, nofun⟩ nofun
  | some s =>
    dsimp only
    by_cases hlength : buffer.length < s.entryLength
    · rw [if_pos hlength]
      refine iff_of_true ⟨_, rfl, rfl, nofun, nofun⟩ ?_
      rintro t ⟨⟩ hroom
      omega
    · obtain ⟨a, ha, hlen, hinfo, hchain⟩ := mergeLoop_spec (laid hcls) single failure entries
        (reached_nil s buffer) (by omega)
      rw [if_neg hlength]
      constructor
      · rintro ⟨a', ha', -, hinside, -⟩ t ⟨⟩ -
        cases ha'.symm.trans ha
        exact roundsInside_iff.mpr (hinfo.mp hinside)
      · intro hrounds
        have hinside := roundsInside_iff.mp (hrounds s rfl (by omega))
        refine ⟨a, ha, hlen, hinfo.mpr hinside, fun hsuccess => ?_⟩
        obtain ⟨w, hw, hc⟩ := hchain hsuccess
        exact ⟨s, w, hcls, hw, hc⟩

/-- A file with the name `abc`. -/
def abc : Entry where
  head := List.replicate 60 0 ++ 6 :: List.replicate 43 0
  name := [97, 0, 98, 0, 99, 0]
  head_length := by decide
  nameLength_eq := by decide
  even := by decide
  short := by decide

/-- Its name ends where the buffer ends, and `Information` is four bytes more. -/
theorem not_wellFormed_names :
    (getMergedInformation .fileNames (List.replicate 20 0) false [abc] none).map
        (fun a => (a.status, a.information)) = some (.success, some 24) ∧
      ¬WellFormed .fileNames (List.replicate 20 (0 : UInt8)).length [abc]
        (getMergedInformation .fileNames (List.replicate 20 0) false [abc] none) := by
  have hrun : (getMergedInformation .fileNames (List.replicate 20 0) false [abc] none).map
      (fun a => (a.status, a.information)) = some (.success, some 24) := by decide
  refine ⟨hrun, ?_⟩
  rintro ⟨a, ha, -, hinside, -⟩
  rw [ha] at hrun
  have hinfo : a.information = some 24 := (Prod.mk.inj (Option.some.inj hrun)).2
  have hle := hinside 24 hinfo
  rw [length_replicate] at hle
  omega

end Sandboxie.DirOutput
