import Sandboxie.ImBox.VirtualMemoryIO

/-!
# The RAM disk is an array of bytes

`content` reads the disk as an array that has zeros where no block is.  Each operation
changes it as it would change an array (`writeBlock_spec`, `clearBlock_spec`), and keeps
the blocks and their number in order (`Good`).

The loops expand the disk by what is left of the request instead of by its end, so an
index can be behind the table.  `Fits` says when it is not, and `fits_step` is what one
round makes of that; `init_asArray_iff` says that the requests of a run are carried out as
on an array exactly when each of them fits.
-/

namespace Sandboxie.ImBox

open Bytes List

variable {g : Geometry}

theorem blockSize_pos (g : Geometry) : 0 < g.blockSize := Nat.pow_pos (by decide)

theorem sectorSize_dvd (g : Geometry) : sectorSize ∣ g.blockSize := by
  have h : (2 : Nat) ^ 9 ∣ 2 ^ g.shift := Nat.pow_dvd_pow 2 (by have := g.shift_ge; omega)
  exact h

variable {lane : Nat}

theorem Lanes.pos (h : Lanes lane) : 0 < lane := by
  rcases h with rfl | rfl | rfl <;> decide

theorem Lanes.dvd (h : Lanes lane) : lane ∣ sectorSize := by
  rcases h with rfl | rfl | rfl <;> decide

/-! ### The content -/

def entryByte : Option (Block g) → Nat → UInt8
  | some b, i => byteAt b.1 i
  | none, _ => 0

def content (m : VirtualMemory g) (a : Nat) : UInt8 :=
  entryByte ((m.table[a / g.blockSize]?).join) (a % g.blockSize)

/-- Every block has something in it, and the blocks are counted. -/
structure Good (m : VirtualMemory g) : Prop where
  nonzero : ∀ (i : Nat) (b : Block g), m.table[i]? = some (some b) → b.1.any (· ≠ 0) = true
  counted : m.nBlock = m.table.countP Option.isSome

/-- An array with `d` written at `off`. -/
def overwrite (a : Nat → UInt8) (off : Nat) (d : List UInt8) : Nat → UInt8 :=
  fun i => if off ≤ i ∧ i < off + d.length then byteAt d (i - off) else a i

def erase (a : Nat → UInt8) (off len : Nat) : Nat → UInt8 :=
  fun i => if off ≤ i ∧ i < off + len then 0 else a i

theorem erase_eq_overwrite (a : Nat → UInt8) (off len : Nat) :
    erase a off len = overwrite a off (List.replicate len 0) := by
  funext i
  rw [erase, overwrite, length_replicate, byteAt_replicate]

theorem overwrite_append (a : Nat → UInt8) (off : Nat) (d e : List UInt8) :
    overwrite (overwrite a off d) (off + d.length) e = overwrite a off (d ++ e) := by
  funext i
  simp only [overwrite, length_append]
  by_cases h : off + d.length ≤ i ∧ i < off + d.length + e.length
  · rw [if_pos h, if_pos (by omega), byteAt, byteAt, getD_append_right _ _ _ _ (by omega)]
    congr 1
    omega
  · rw [if_neg h]
    by_cases h' : off ≤ i ∧ i < off + d.length
    · rw [if_pos h', if_pos (by omega), byteAt, byteAt, getD_append _ _ _ _ (by omega)]
    · rw [if_neg h', if_neg (by omega)]

theorem erase_erase (a : Nat → UInt8) (off m n : Nat) :
    erase (erase a off m) (off + m) n = erase a off (m + n) := by
  funext i
  simp only [erase]
  by_cases h : off + m ≤ i ∧ i < off + m + n
  · rw [if_pos h, if_pos (by omega)]
  · rw [if_neg h]
    by_cases h' : off ≤ i ∧ i < off + m
    · rw [if_pos h', if_pos (by omega)]
    · rw [if_neg h', if_neg (by omega)]

theorem in_block_iff {index bo n a : Nat} (h : bo + n ≤ g.blockSize) :
    (index * g.blockSize + bo ≤ a ∧ a < index * g.blockSize + bo + n) ↔
      a / g.blockSize = index ∧ bo ≤ a % g.blockSize ∧ a % g.blockSize < bo + n := by
  have hpos := blockSize_pos g
  have hdiv := Nat.div_add_mod a g.blockSize
  have hmod := Nat.mod_lt a hpos
  rw [Nat.mul_comm] at hdiv
  refine ⟨fun h => ?_, fun h => ?_⟩
  · have hindex : a / g.blockSize = index := by
      refine Nat.div_eq_of_lt_le (by omega) ?_
      rw [Nat.add_mul, Nat.one_mul]
      omega
    rw [hindex] at hdiv
    omega
  · obtain ⟨hindex, h⟩ := h
    rw [hindex] at hdiv
    omega

/-! ### One block -/

variable {m : VirtualMemory g}

theorem content_setBlock {index : Nat} {ptr : Option (Block g)} {n a : Nat}
    (h : index < m.table.length) : content (m.setBlock index ptr n) a =
      if a / g.blockSize = index then entryByte ptr (a % g.blockSize) else content m a := by
  unfold content VirtualMemory.setBlock
  by_cases hindex : a / g.blockSize = index
  · rw [if_pos hindex, hindex, getElem?_set_self h]
    rfl
  · rw [if_neg hindex, getElem?_set_ne (fun h => hindex h.symm)]

variable {entry : Option (Block g)}

theorem content_of_entry {index a : Nat}
    (h : m.table[index]? = some entry) (ha : a / g.blockSize = index) :
    content m a = entryByte entry (a % g.blockSize) := by
  rw [content, ha, h]
  rfl

theorem content_replace {index n bo : Nat} {entry ptr : Option (Block g)}
    {d : List UInt8} (hentry : m.table[index]? = some entry) (hin : bo + d.length ≤ g.blockSize)
    (hptr : ∀ i < g.blockSize, entryByte ptr i = overwrite (entryByte entry) bo d i) :
    content (m.setBlock index ptr n) = overwrite (content m) (index * g.blockSize + bo) d := by
  have hlt : index < m.table.length := (List.getElem?_eq_some_iff.mp hentry).1
  funext a
  have hmod := Nat.mod_lt a (blockSize_pos g)
  have hdiv := Nat.div_add_mod a g.blockSize
  have hrange := @in_block_iff g index _ _ a hin
  rw [content_setBlock hlt, overwrite]
  by_cases hindex : a / g.blockSize = index
  · rw [if_pos hindex, hptr _ hmod, overwrite, content_of_entry hentry hindex]
    by_cases hpart : bo ≤ a % g.blockSize ∧ a % g.blockSize < bo + d.length
    · rw [if_pos hpart, if_pos (hrange.mpr ⟨hindex, hpart⟩)]
      congr 1
      rw [hindex, Nat.mul_comm] at hdiv
      omega
    · rw [if_neg hpart, if_neg fun h => hpart (hrange.mp h).2]
  · rw [if_neg hindex, if_neg fun h => hindex (hrange.mp h).1]

theorem good_setBlock {index n : Nat} {entry ptr : Option (Block g)}
    (hgood : Good m) (hentry : m.table[index]? = some entry)
    (hptr : ∀ b, ptr = some b → b.1.any (· ≠ 0) = true)
    (hn : n + (if entry.isSome then 1 else 0) = m.nBlock + if ptr.isSome then 1 else 0) :
    Good (m.setBlock index ptr n) := by
  have hlt : index < m.table.length := (List.getElem?_eq_some_iff.mp hentry).1
  have hget : m.table[index] = entry := (List.getElem?_eq_some_iff.mp hentry).2
  refine ⟨?_, ?_⟩
  · intro i b hb
    by_cases hi : index = i
    · subst hi
      rw [VirtualMemory.setBlock, List.getElem?_set_self hlt] at hb
      exact hptr b (Option.some.inj hb)
    · rw [VirtualMemory.setBlock, List.getElem?_set_ne hi] at hb
      exact hgood.nonzero i b hb
  · have hcount := hgood.counted
    have hle : (if entry.isSome = true then 1 else 0) ≤ m.table.countP Option.isSome := by
      by_cases hsome : entry.isSome = true
      · rw [if_pos hsome]
        refine List.countP_pos_iff.mpr ⟨entry, ?_, hsome⟩
        rw [← hget]
        exact List.getElem_mem hlt
      · rw [if_neg hsome]
        exact Nat.zero_le _
    show n = (m.table.set index ptr).countP Option.isSome
    rw [List.countP_set hlt, hget]
    omega

theorem any_of_byteAt {b : List UInt8} {i : Nat} (h : byteAt b i ≠ 0) :
    b.any (· ≠ 0) = true := (any_iff b).mpr ⟨i, h⟩

theorem eq_zeros {b : List UInt8} (h : ¬ b.any (· ≠ 0) = true) :
    b = List.replicate b.length 0 := by
  refine eq_replicate_iff.mpr ⟨rfl, fun x hx => ?_⟩
  by_contra hne
  exact h (any_eq_true.mpr ⟨x, hx, decide_eq_true hne⟩)

theorem clearBlock_spec {index bo n : Nat} {ptr : Block g}
    (hlane : Lanes lane) (hgood : Good m) (hentry : m.table[index]? = some (some ptr))
    (hin : bo + n ≤ g.blockSize) (hbo : sectorSize ∣ bo) (hn : sectorSize ∣ n) :
    ∃ m', clearBlock lane m index ptr bo n = some m' ∧ m'.uSize = m.uSize ∧
      m'.table.length = m.table.length ∧ Good m' ∧
      content m' = erase (content m) (index * g.blockSize + bo) n := by
  have hptr := ptr.2
  have hzeros : bo + (List.replicate n (0 : UInt8)).length ≤ g.blockSize := by
    rw [length_replicate]
    exact hin
  have hfront : dataSearch lane (ptr.1.take bo) = (ptr.1.take bo).any (· ≠ 0) := by
    refine dataSearch_eq hlane.pos (Nat.dvd_trans hlane.dvd ?_)
    rw [length_take, hptr, Nat.min_eq_left (by omega)]
    exact hbo
  have hback : dataSearch lane (ptr.1.drop (bo + n)) = (ptr.1.drop (bo + n)).any (· ≠ 0) := by
    refine dataSearch_eq hlane.pos (Nat.dvd_trans hlane.dvd ?_)
    rw [length_drop, hptr]
    exact Nat.dvd_sub (sectorSize_dvd g) (Nat.dvd_add hbo hn)
  unfold clearBlock
  rw [hfront, hback, erase_eq_overwrite]
  by_cases hdata : ((ptr.1.take bo).any (· ≠ 0) || (ptr.1.drop (bo + n)).any (· ≠ 0)) = true
  · -- something else is in the block
    have hput : bo + (List.replicate n (0 : UInt8)).length ≤ ptr.1.length := by
      rw [hptr]
      exact hzeros
    rw [if_pos hdata, Block.put, dif_pos hput]
    refine ⟨_, rfl, rfl, length_set, good_setBlock hgood hentry ?_ rfl,
      content_replace hentry hzeros fun i _ => byteAt_splice hput⟩
    intro b hb
    cases hb
    rcases (Bool.or_eq_true _ _).mp hdata with h | h
    · obtain ⟨i, hi⟩ := (any_iff _).mp h
      by_cases hlt : i < bo
      · rw [byteAt_take hlt] at hi
        refine any_of_byteAt (i := i) ?_
        rw [byteAt_splice_of_lt (by omega) hlt]
        exact hi
      · exact absurd (byteAt_of_le (by rw [length_take]; omega)) hi
    · obtain ⟨i, hi⟩ := (any_iff _).mp h
      rw [byteAt_drop] at hi
      refine any_of_byteAt (i := bo + n + i) ?_
      rw [byteAt_splice_of_ge hput (by rw [length_replicate]; omega)]
      exact hi
  · -- the rest of the block is zero, so that the block can go
    rw [if_neg hdata]
    have hrest : ∀ i, ¬ (bo ≤ i ∧ i < bo + n) → byteAt ptr.1 i = 0 := by
      intro i hi
      by_contra hne
      refine hdata ((Bool.or_eq_true _ _).mpr ?_)
      by_cases hlt : i < bo
      · refine .inl (any_of_byteAt (i := i) ?_)
        rw [byteAt_take hlt]
        exact hne
      · refine .inr (any_of_byteAt (i := i - (bo + n)) ?_)
        rw [byteAt_drop, Nat.add_sub_cancel' (by omega)]
        exact hne
    have hpos : 0 < m.nBlock := by
      rw [hgood.counted]
      exact countP_pos_iff.mpr ⟨some ptr, mem_of_getElem? hentry, rfl⟩
    refine ⟨_, rfl, rfl, length_set, good_setBlock hgood hentry ?_ ?_,
      content_replace hentry hzeros fun i _ => ?_⟩
    · intro b hb
      cases hb
    · show m.nBlock - 1 + 1 = m.nBlock + 0
      omega
    · rw [overwrite, length_replicate, byteAt_replicate]
      by_cases hi : bo ≤ i ∧ i < bo + n
      · rw [if_pos hi]
        rfl
      · rw [if_neg hi]
        exact (hrest i hi).symm

theorem writeBlock_spec {index bo : Nat} {buf : List UInt8} (hlane : Lanes lane) (hgood : Good m)
    (hentry : m.table[index]? = some entry) (hin : bo + buf.length ≤ g.blockSize)
    (hbo : sectorSize ∣ bo) (hbuf : sectorSize ∣ buf.length) :
    ∃ m', writeBlock lane true m index entry bo buf = some (m', true) ∧ m'.uSize = m.uSize ∧
      m'.table.length = m.table.length ∧ Good m' ∧
      content m' = overwrite (content m) (index * g.blockSize + bo) buf := by
  have hsearch : dataSearch lane buf = buf.any (· ≠ 0) :=
    dataSearch_eq hlane.pos (Nat.dvd_trans hlane.dvd hbuf)
  have hwritten : ∀ (b : Block g), buf.any (· ≠ 0) = true → ∀ hput,
      (⟨splice b.1 bo buf, hput⟩ : Block g).1.any (· ≠ 0) = true := by
    intro b hdata hput
    obtain ⟨i, hi⟩ := (any_iff _).mp hdata
    have hlt : i < buf.length := by
      by_contra hge
      exact hi (byteAt_of_le (by omega))
    refine any_of_byteAt (i := bo + i) ?_
    rw [byteAt_splice_of_mem (by rw [b.2]; omega) hlt]
    exact hi
  unfold writeBlock
  rw [hsearch]
  cases entry with
  | some ptr =>
    have hput : bo + buf.length ≤ ptr.1.length := by
      rw [ptr.2]
      exact hin
    dsimp only
    by_cases hdata : buf.any (· ≠ 0) = true
    · rw [if_pos hdata, Block.put, dif_pos hput]
      refine ⟨_, rfl, rfl, length_set, good_setBlock hgood hentry ?_ rfl,
        content_replace hentry hin fun i _ => byteAt_splice hput⟩
      intro b hb
      cases hb
      exact hwritten ptr hdata _
    · rw [if_neg hdata]
      obtain ⟨m', hm', huSize, hlength, hgood', hcontent⟩ :=
        clearBlock_spec hlane hgood hentry hin hbo hbuf
      rw [hm']
      refine ⟨m', rfl, huSize, hlength, hgood', ?_⟩
      rw [hcontent, erase_eq_overwrite, ← eq_zeros hdata]
  | none =>
    dsimp only
    by_cases hdata : buf.any (· ≠ 0) = true
    · have hput : bo + buf.length ≤ (Block.zero g).1.length := by
        rw [(Block.zero g).2]
        exact hin
      rw [if_pos hdata, if_pos rfl, Block.put, dif_pos hput]
      refine ⟨_, rfl, rfl, length_set, good_setBlock hgood hentry ?_ rfl,
        content_replace hentry hin fun i _ => ?_⟩
      · intro b hb
        cases hb
        exact hwritten (Block.zero g) hdata _
      · show byteAt (splice (Block.zero g).1 bo buf) i = _
        rw [byteAt_splice hput, overwrite, Block.zero, byteAt_replicate]
        rfl
    · rw [if_neg hdata]
      refine ⟨m, rfl, rfl, rfl, hgood, ?_⟩
      funext a
      rw [eq_zeros hdata, overwrite, byteAt_replicate, length_replicate]
      by_cases ha : index * g.blockSize + bo ≤ a ∧ a < index * g.blockSize + bo + buf.length
      · rw [if_pos ha, content_of_entry hentry ((in_block_iff hin).mp ha).1]
        rfl
      · rw [if_neg ha]

/-! ### Expanding -/

theorem lt_blocks_iff (g : Geometry) (i x : Nat) :
    i < (x + (g.blockSize - 1)) / g.blockSize ↔ i * g.blockSize < x := by
  have hpos := blockSize_pos g
  rw [← Nat.add_one_le_iff, Nat.le_div_iff_mul_le hpos, Nat.add_mul, Nat.one_mul]
  omega

theorem content_expand (m : VirtualMemory g) (uSize : Nat) :
    content (expand m uSize) = content m := by
  funext a
  unfold expand
  by_cases h : uSize ≤ m.uSize
  · rw [dif_pos h]
  rw [dif_neg h]
  unfold content
  by_cases hlt : a / g.blockSize < m.table.length
  · rw [getElem?_append_left hlt]
  · rw [getElem?_append_right (by omega), getElem?_eq_none (l := m.table) (by omega)]
    rw [getElem?_replicate]
    split <;> rfl

theorem good_expand (uSize : Nat) (h : Good m) : Good (expand m uSize) := by
  unfold expand
  by_cases hle : uSize ≤ m.uSize
  · rw [dif_pos hle]
    exact h
  rw [dif_neg hle]
  refine ⟨?_, ?_⟩
  · intro i b hb
    refine h.nonzero i b ?_
    by_cases hlt : i < m.table.length
    · rw [getElem?_append_left hlt] at hb
      exact hb
    · rw [getElem?_append_right (by omega), getElem?_replicate] at hb
      split at hb <;> cases hb
  · show m.nBlock = _
    rw [countP_append, countP_replicate, h.counted]
    rfl

theorem lt_expand_iff (m : VirtualMemory g) (uSize i : Nat) :
    i < (expand m uSize).table.length ↔ i < m.table.length ∨ i * g.blockSize < uSize := by
  rw [(expand m uSize).table_length, m.table_length, lt_blocks_iff, lt_blocks_iff]
  unfold expand
  by_cases h : uSize ≤ m.uSize
  · rw [dif_pos h]
    omega
  · rw [dif_neg h]
    dsimp only
    omega

theorem content_reach (m : VirtualMemory g) (index offset size : Nat) :
    content (reach m index offset size) = content m := by
  unfold reach
  split
  · exact content_expand m _
  · rfl

theorem good_reach (index offset size : Nat) (h : Good m) :
    Good (reach m index offset size) := by
  unfold reach
  split
  · exact good_expand _ h
  · exact h

def lastIndex (g : Geometry) (pos size : Nat) : Nat :=
  if size = 0 then pos / g.blockSize else (pos + size - 1) / g.blockSize

/-- A request at `offset`, of which `size` bytes from `pos` on are left, finds its blocks in
the table: they are there, or they begin behind the table and the expansion by what is left
reaches the last one, or they begin in the table and the expansion at its end does. -/
def Fits (m : VirtualMemory g) (offset pos size : Nat) : Prop :=
  lastIndex g pos size < m.table.length ∨
    (m.table.length ≤ pos / g.blockSize ∧ lastIndex g pos size * g.blockSize < offset + size) ∨
    (pos / g.blockSize < m.table.length ∧ m.table.length ≤ lastIndex g pos size ∧
      lastIndex g pos size * g.blockSize <
        offset + (pos + size - m.table.length * g.blockSize))

theorem div_of_lt {index bo : Nat} (h : bo < g.blockSize) :
    (index * g.blockSize + bo) / g.blockSize = index := by
  rw [Nat.mul_comm, Nat.mul_add_div (blockSize_pos g), Nat.div_eq_of_lt h, Nat.add_zero]

theorem lt_reach_iff (m : VirtualMemory g) (index offset size k : Nat) :
    k < (reach m index offset size).table.length ↔
      k < m.table.length ∨ (m.table.length ≤ index ∧ k * g.blockSize < offset + size) := by
  unfold reach
  by_cases h : m.table.length ≤ index
  · rw [if_pos h, lt_expand_iff]
    omega
  · rw [if_neg h]
    omega

theorem lastIndex_next {index bo size : Nat} (hover : g.blockSize < size + bo)
    (hbo : bo < g.blockSize) :
    lastIndex g (index * g.blockSize + bo) size =
        lastIndex g ((index + 1) * g.blockSize) (size - (g.blockSize - bo)) ∧
      index + 1 ≤ lastIndex g (index * g.blockSize + bo) size := by
  have hsum : (index + 1) * g.blockSize = index * g.blockSize + g.blockSize := by
    rw [Nat.add_mul, Nat.one_mul]
  unfold lastIndex
  rw [if_neg (by omega), if_neg (by omega)]
  refine ⟨?_, ?_⟩
  · congr 1
    omega
  · rw [Nat.le_div_iff_mul_le (blockSize_pos g)]
    omega

/-- **One round**: a request fits when its index is in the table after the expansion and
what is left of it fits. -/
theorem fits_step (m : VirtualMemory g) (offset : Nat) {index bo size : Nat}
    (hbo : bo < g.blockSize) :
    Fits m offset (index * g.blockSize + bo) size ↔
      index < (reach m index offset size).table.length ∧
        (size - currentSize g size bo = 0 ∨
          Fits (reach m index offset size) offset ((index + 1) * g.blockSize)
            (size - currentSize g size bo)) := by
  have hreach := lt_reach_iff m index offset size
  have hsum : (index + 1) * g.blockSize = index * g.blockSize + g.blockSize := by
    rw [Nat.add_mul, Nat.one_mul]
  by_cases hover : g.blockSize < size + bo
  · -- there is more in the next block
    obtain ⟨hlast, hle⟩ := @lastIndex_next g index _ _ hover hbo
    have hcurrent : currentSize g size bo = g.blockSize - bo := by
      unfold currentSize
      omega
    have hnext : ((index + 1) * g.blockSize) / g.blockSize = index + 1 :=
      Nat.mul_div_cancel _ (blockSize_pos g)
    rw [hcurrent]
    unfold Fits
    rw [← hlast, div_of_lt hbo, hnext]
    generalize hL : lastIndex g (index * g.blockSize + bo) size = last at hle ⊢
    have hmul : (index + 1) * g.blockSize ≤ last * g.blockSize := Nat.mul_le_mul_right _ hle
    by_cases hbehind : m.table.length ≤ index
    · have hexpanded := hreach last
      have hindex := hreach index
      by_cases hreaches : last * g.blockSize < offset + size
      · refine ⟨fun _ => ⟨hindex.mpr (.inr ⟨hbehind, by omega⟩), .inr (.inl ?_)⟩,
          fun _ => .inr (.inl ⟨hbehind, hreaches⟩)⟩
        exact hexpanded.mpr (.inr ⟨hbehind, hreaches⟩)
      refine ⟨fun h => by omega, fun h => ?_⟩
      obtain ⟨_, h⟩ := h
      have hnot : ¬ last < (reach m index offset size).table.length := by
        rw [hexpanded]
        omega
      rcases h with h | h | h | ⟨hin, _, h⟩
      · omega
      · exact absurd h hnot
      · omega
      · have := Nat.mul_le_mul_right g.blockSize (Nat.le_of_lt hin)
        omega
    · have hsame : reach m index offset size = m := if_neg hbehind
      rw [hsame]
      by_cases hedge : m.table.length = index + 1
      · rw [hedge]
        omega
      · omega
  · -- the last round
    have hcurrent : size - currentSize g size bo = 0 := by
      unfold currentSize
      omega
    have hlast : lastIndex g (index * g.blockSize + bo) size = index := by
      unfold lastIndex
      by_cases hsize : size = 0
      · rw [if_pos hsize, div_of_lt hbo]
      · rw [if_neg hsize]
        refine Nat.div_eq_of_lt_le (by omega) ?_
        rw [hsum]
        omega
    rw [hcurrent, hreach]
    unfold Fits
    rw [hlast, div_of_lt hbo]
    omega

/-! ### Requests -/

theorem fits_congr {m m' : VirtualMemory g} (h : m.table.length = m'.table.length)
    (offset pos size : Nat) : Fits m offset pos size ↔ Fits m' offset pos size := by
  unfold Fits
  rw [h]

theorem currentSize_le {size bo : Nat} : currentSize g size bo ≤ size := by
  unfold currentSize
  omega

theorem currentSize_in {size bo : Nat} (hbo : bo < g.blockSize) :
    bo + currentSize g size bo ≤ g.blockSize := by
  unfold currentSize
  omega

theorem currentSize_whole {size bo : Nat} (hbo : sectorSize ∣ bo) (hsize : sectorSize ∣ size) :
    sectorSize ∣ currentSize g size bo := by
  refine Nat.dvd_sub ?_ hbo
  by_cases h : size + bo ≤ g.blockSize
  · rw [Nat.min_eq_left h]
    exact Nat.dvd_add hsize hbo
  · rw [Nat.min_eq_right (by omega)]
    exact sectorSize_dvd g

theorem currentSize_of_rest {size bo : Nat} (hbo : bo < g.blockSize)
    (h : 0 < size - currentSize g size bo) : currentSize g size bo = g.blockSize - bo := by
  unfold currentSize at h ⊢
  omega

/-- **The loop of `DiskWrite`** returns when the rest of the request fits, and then it has
written that. -/
theorem diskWriteLoop_spec (hlane : Lanes lane) (offset : Nat) :
    ∀ (fuel : Nat) (m : VirtualMemory g) (ret : Bool) (buf : List UInt8) (index bo : Nat),
      Good m → bo < g.blockSize → sectorSize ∣ bo → sectorSize ∣ buf.length →
      buf.length < fuel →
      ((diskWriteLoop lane (fun _ => true) offset fuel m ret buf index bo).isSome = true ↔
          Fits m offset (index * g.blockSize + bo) buf.length) ∧
        ∀ m' r, diskWriteLoop lane (fun _ => true) offset fuel m ret buf index bo = some (m', r) →
          r = ret ∧ Good m' ∧ content m' =
            overwrite (content m) (index * g.blockSize + bo) buf := by
  intro fuel
  induction fuel with
  | zero =>
    intro m ret buf index bo _ _ _ _ hfuel
    omega
  | succ fuel ih =>
    intro m ret buf index bo hgood hbo hbo' hbuf hfuel
    have hstep := @fits_step g m offset index _ buf.length hbo
    rw [diskWriteLoop]
    cases hentry : (reach m index offset buf.length).table[index]? with
    | none =>
      have hout := List.getElem?_eq_none_iff.mp hentry
      refine ⟨?_, fun m' r h => (by cases h)⟩
      rw [hstep]
      exact ⟨fun h => (by cases h), fun h => absurd h.1 (by omega)⟩
    | some entry =>
      have hin := (List.getElem?_eq_some_iff.mp hentry).1
      have hcurrent := @currentSize_le g buf.length bo
      have hwhole := currentSize_whole (g := g) hbo' hbuf
      have htake : (buf.take (currentSize g buf.length bo)).length =
          currentSize g buf.length bo := by
        rw [List.length_take, Nat.min_eq_left hcurrent]
      have hrest : (buf.drop (currentSize g buf.length bo)).length =
          buf.length - currentSize g buf.length bo := List.length_drop
      obtain ⟨m1, hm1, _, hlength, hgood1, hcontent1⟩ := writeBlock_spec hlane
        (good_reach index offset buf.length hgood) hentry
        (by rw [htake]; exact currentSize_in hbo) hbo'
        (by rw [htake]; exact hwhole)
      rw [content_reach] at hcontent1
      simp only [hm1, Bool.and_true]
      by_cases hmore : (buf.drop (currentSize g buf.length bo)).length > 0
      · rw [if_pos hmore]
        have hfull := @currentSize_of_rest g buf.length _ hbo (by omega)
        obtain ⟨hsome, hresult⟩ := ih m1 ret (buf.drop (currentSize g buf.length bo)) (index + 1) 0
          hgood1 (blockSize_pos g) (Nat.dvd_zero _)
          (by rw [hrest]; exact Nat.dvd_sub hbuf hwhole) (by omega)
        refine ⟨?_, fun m' r h => ?_⟩
        · rw [hsome, hstep, Nat.add_zero, hrest, fits_congr hlength]
          refine ⟨fun h => ⟨hin, .inr h⟩, fun h => h.2.resolve_left (by omega)⟩
        · obtain ⟨hr, hgood', hcontent'⟩ := hresult m' r h
          refine ⟨hr, hgood', ?_⟩
          have hpos : (index + 1) * g.blockSize + 0 = index * g.blockSize + bo +
              (buf.take (currentSize g buf.length bo)).length := by
            rw [htake, hfull, Nat.add_mul, Nat.one_mul]
            omega
          rw [hcontent', hcontent1, hpos, overwrite_append, List.take_append_drop]
      · rw [if_neg hmore]
        refine ⟨?_, fun m' r h => ?_⟩
        · rw [hstep]
          exact ⟨fun _ => ⟨hin, .inl (by omega)⟩, fun _ => rfl⟩
        · cases h
          refine ⟨rfl, hgood1, ?_⟩
          rw [hcontent1, List.take_of_length_le (by omega)]

/-- `b` is the part of the array at `off`. -/
def reads (a : Nat → UInt8) (off : Nat) (b : List UInt8) : Prop :=
  ∀ i < b.length, byteAt b i = a (off + i)

theorem reads_append {a : Nat → UInt8} {off : Nat} {b c : List UInt8} (hb : reads a off b)
    (hc : reads a (off + b.length) c) : reads a off (b ++ c) := by
  intro i hi
  rw [length_append] at hi
  by_cases hlt : i < b.length
  · rw [byteAt, getD_append _ _ _ _ hlt]
    exact hb i hlt
  · rw [byteAt, getD_append_right _ _ _ _ (by omega)]
    have h := hc (i - b.length) (by omega)
    rw [Nat.add_assoc, Nat.add_sub_cancel' (by omega)] at h
    exact h

theorem readBlock_spec {index bo n : Nat}
    (hentry : m.table[index]? = some entry) (hin : bo + n ≤ g.blockSize) :
    (readBlock entry bo n).length = n ∧
      reads (content m) (index * g.blockSize + bo) (readBlock entry bo n) := by
  have hbyte : ∀ i < n, content m (index * g.blockSize + bo + i) = entryByte entry (bo + i) := by
    intro i hi
    have ha : (index * g.blockSize + bo + i) / g.blockSize = index := by
      rw [Nat.add_assoc]
      exact div_of_lt (by omega)
    rw [content_of_entry hentry ha, Nat.add_assoc, Nat.mul_comm, Nat.mul_add_mod,
      Nat.mod_eq_of_lt (by omega)]
  cases entry with
  | some ptr =>
    have hlength : (readBlock (some ptr) bo n).length = n := by
      rw [readBlock, length_take, length_drop, ptr.2, Nat.min_eq_left (by omega)]
    refine ⟨hlength, fun i hi => ?_⟩
    rw [hlength] at hi
    rw [hbyte i hi, readBlock, byteAt_take hi, byteAt_drop]
    rfl
  | none =>
    have hlength : (readBlock (none : Option (Block g)) bo n).length = n := length_replicate
    refine ⟨hlength, fun i hi => ?_⟩
    rw [hlength] at hi
    rw [hbyte i hi, readBlock, byteAt_replicate]
    rfl

/-- **The loop of `DiskRead`** returns when the rest of the request fits, and then it has
read that. -/
theorem diskReadLoop_spec (offset : Nat) :
    ∀ (fuel : Nat) (m : VirtualMemory g) (size index bo : Nat),
      Good m → bo < g.blockSize → size < fuel →
      ((diskReadLoop offset fuel m size index bo).isSome = true ↔
          Fits m offset (index * g.blockSize + bo) size) ∧
        ∀ m' b, diskReadLoop offset fuel m size index bo = some (m', b) →
          Good m' ∧ content m' = content m ∧ b.length = size ∧
            reads (content m) (index * g.blockSize + bo) b := by
  intro fuel
  induction fuel with
  | zero =>
    intro m size index bo _ _ hfuel
    omega
  | succ fuel ih =>
    intro m size index bo hgood hbo hfuel
    have hstep := @fits_step g m offset index _ size hbo
    rw [diskReadLoop]
    cases hentry : (reach m index offset size).table[index]? with
    | none =>
      have hout := List.getElem?_eq_none_iff.mp hentry
      refine ⟨?_, fun m' r h => (by cases h)⟩
      rw [hstep]
      exact ⟨fun h => (by cases h), fun h => absurd h.1 (by omega)⟩
    | some entry =>
      have hin := (List.getElem?_eq_some_iff.mp hentry).1
      have hgood1 := good_reach index offset size hgood
      have hcontent1 := content_reach m index offset size
      have hcurrent := @currentSize_le g size bo
      obtain ⟨hlen, hreads⟩ := readBlock_spec hentry (@currentSize_in g size _ hbo)
      rw [hcontent1] at hreads
      dsimp only
      by_cases hmore : size - currentSize g size bo > 0
      · rw [if_pos hmore]
        have hfull := currentSize_of_rest hbo hmore
        obtain ⟨hsome, hresult⟩ := ih (reach m index offset size) (size - currentSize g size bo)
          (index + 1) 0 hgood1 (blockSize_pos g) (by omega)
        refine ⟨?_, fun m' r h => ?_⟩
        · rw [Option.isSome_map, hsome, hstep, Nat.add_zero]
          exact ⟨fun h => ⟨hin, .inr h⟩, fun h => h.2.resolve_left (by omega)⟩
        obtain ⟨r', hr', heq⟩ := Option.map_eq_some_iff.mp h
        cases heq
        obtain ⟨hgood', hcontent', hlen', hreads'⟩ := hresult r'.1 r'.2 hr'
        have hpos : (index + 1) * g.blockSize + 0 = index * g.blockSize + bo +
            (readBlock entry bo (currentSize g size bo)).length := by
          rw [hlen, hfull, Nat.add_mul, Nat.one_mul]
          omega
        rw [hpos, hcontent1] at hreads'
        refine ⟨hgood', hcontent'.trans hcontent1, ?_, reads_append hreads hreads'⟩
        rw [List.length_append]
        omega
      · rw [if_neg hmore]
        refine ⟨?_, fun m' r h => ?_⟩
        · rw [hstep]
          exact ⟨fun _ => ⟨hin, .inl (by omega)⟩, fun _ => rfl⟩
        · cases h
          exact ⟨hgood1, hcontent1, by omega, hreads⟩

theorem content_behind {a : Nat} (h : m.table.length ≤ a / g.blockSize) :
    content m a = 0 := by
  rw [content, getElem?_eq_none h]
  rfl

theorem erase_of_zero {a : Nat → UInt8} {off len : Nat}
    (h : ∀ i, off ≤ i → i < off + len → a i = 0) : erase a off len = a := by
  funext i
  rw [erase]
  by_cases hi : off ≤ i ∧ i < off + len
  · rw [if_pos hi, h i hi.1 hi.2]
  · rw [if_neg hi]

theorem trimBlock_spec {index bo n : Nat} (hlane : Lanes lane) (hgood : Good m)
    (hentry : m.table[index]? = some entry) (hin : bo + n ≤ g.blockSize)
    (hbo : sectorSize ∣ bo) (hn : sectorSize ∣ n) :
    ∃ m', trimBlock lane m index entry bo n = some m' ∧ Good m' ∧
      content m' = erase (content m) (index * g.blockSize + bo) n := by
  cases entry with
  | some ptr =>
    obtain ⟨m', hm', _, _, hgood', hcontent'⟩ := clearBlock_spec hlane hgood hentry hin hbo hn
    exact ⟨m', hm', hgood', hcontent'⟩
  | none =>
    refine ⟨m, rfl, hgood, ?_⟩
    rw [erase_of_zero fun i hge hlt => ?_]
    rw [content_of_entry hentry ((in_block_iff hin).mp ⟨hge, hlt⟩).1]
    rfl

/-- **The inner loop of `TrimProcess`** puts zeros there.  It stops behind the table, where
there are only zeros. -/
theorem trimLoop_spec (hlane : Lanes lane) :
    ∀ (fuel : Nat) (m : VirtualMemory g) (size index bo : Nat),
      Good m → bo < g.blockSize → sectorSize ∣ bo → sectorSize ∣ size → size ≤ fuel →
      ∃ m', trimLoop lane fuel m size index bo = some m' ∧ Good m' ∧
        content m' = erase (content m) (index * g.blockSize + bo) size := by
  intro fuel
  induction fuel with
  | zero =>
    intro m size index bo hgood _ _ _ hfuel
    refine ⟨m, rfl, hgood, ?_⟩
    rw [erase_of_zero fun i hge hlt => by omega]
  | succ fuel ih =>
    intro m size index bo hgood hbo hbo' hsize hfuel
    rw [trimLoop]
    by_cases hzero : size = 0
    · rw [if_pos hzero]
      refine ⟨m, rfl, hgood, ?_⟩
      rw [erase_of_zero fun i hge hlt => by omega]
    rw [if_neg hzero]
    cases hentry : m.table[index]? with
    | none =>
      have hout := getElem?_eq_none_iff.mp hentry
      refine ⟨m, rfl, hgood, ?_⟩
      rw [erase_of_zero fun i hge _ => ?_]
      refine content_behind (Nat.le_trans hout ?_)
      rw [Nat.le_div_iff_mul_le (blockSize_pos g)]
      omega
    | some entry =>
      have hcurrent := @currentSize_le g size bo
      have hinside := @currentSize_in g size _ hbo
      have hwhole := currentSize_whole (g := g) hbo' hsize
      obtain ⟨m1, hm1, hgood1, hcontent1⟩ :=
        trimBlock_spec hlane hgood hentry hinside hbo' hwhole
      have hprogress : 0 < currentSize g size bo := by
        unfold currentSize
        omega
      obtain ⟨m', hm', hgood', hcontent'⟩ := ih m1 (size - currentSize g size bo) (index + 1) 0
        hgood1 (blockSize_pos g) (Nat.dvd_zero _) (Nat.dvd_sub hsize hwhole) (by omega)
      refine ⟨m', ?_, hgood', ?_⟩
      · dsimp only
        rw [hm1]
        exact hm'
      by_cases hmore : 0 < size - currentSize g size bo
      · have hfull := currentSize_of_rest hbo hmore
        have hpos : (index + 1) * g.blockSize + 0 =
            index * g.blockSize + bo + currentSize g size bo := by
          rw [hfull, Nat.add_mul, Nat.one_mul]
          omega
        rw [hcontent', hcontent1, hpos, erase_erase]
        congr 1
        omega
      · have hall : size - currentSize g size bo = 0 := by omega
        have hlast : currentSize g size bo = size := by omega
        rw [hcontent', hall, erase_of_zero fun i hge hlt => by omega, hcontent1, hlast]

/-! ### Requests -/

def trimmed (a : Nat → UInt8) : List Range → Nat → UInt8
  | [] => a
  | r :: rest => trimmed (erase a r.startingOffset r.lengthInBytes) rest

theorem trimProcess_spec (hlane : Lanes lane) :
    ∀ (ranges : List Range) (m : VirtualMemory g), Good m →
      (∀ r ∈ ranges, sectorSize ∣ r.lengthInBytes ∧ sectorSize ∣ r.startingOffset) →
      ∃ m', trimProcess lane m ranges = some m' ∧ Good m' ∧
        content m' = trimmed (content m) ranges := by
  intro ranges
  induction ranges with
  | nil => exact fun m hgood _ => ⟨m, rfl, hgood, rfl⟩
  | cons r rest ih =>
    intro m hgood hwhole
    obtain ⟨hlength, hoffset⟩ := hwhole r mem_cons_self
    obtain ⟨m1, hm1, hgood1, hcontent1⟩ := trimLoop_spec hlane r.lengthInBytes m r.lengthInBytes
      (r.startingOffset / g.blockSize) (r.startingOffset % g.blockSize) hgood
      (Nat.mod_lt _ (blockSize_pos g)) ((Nat.dvd_mod_iff (sectorSize_dvd g)).mpr hoffset) hlength
      (Nat.le_refl _)
    obtain ⟨m', hm', hgood', hcontent'⟩ :=
      ih m1 hgood1 fun r' hr' => hwhole r' (mem_cons_of_mem r hr')
    refine ⟨m', ?_, hgood', ?_⟩
    · rw [trimProcess, hm1]
      exact hm'
    · rw [hcontent', hcontent1, Nat.div_add_mod']
      rfl

def Request.apply (a : Nat → UInt8) : Request → Nat → UInt8
  | .write buf offset _ => overwrite a offset buf
  | .read _ _ _ => a
  | .trim ranges _ => trimmed a ranges

def Request.Answers (a : Nat → UInt8) : Request → List UInt8 → Prop
  | .write _ _ _, data => data = []
  | .read size offset _, data => data.length = size ∧ reads a offset data
  | .trim _ _, data => data = []

/-- The request finds its blocks in the table. -/
def Request.Fits (m : VirtualMemory g) : Request → Prop
  | .write buf offset _ => ImBox.Fits m offset offset buf.length
  | .read size offset _ => ImBox.Fits m offset offset size
  | .trim _ _ => True

theorem request_spec (hlane : Lanes lane) (hgood : Good m) (r : Request) :
    ((request lane m r).isSome = true ↔ r.Fits m) ∧
      ∀ m' data, request lane m r = some (m', data) →
        Good m' ∧ content m' = r.apply (content m) ∧ r.Answers (content m) data := by
  have hbo : ∀ offset, offset % g.blockSize < g.blockSize :=
    fun offset => Nat.mod_lt _ (blockSize_pos g)
  cases r with
  | write buf offset whole =>
    obtain ⟨hbuf, hoffset⟩ := whole
    have hspec := diskWriteLoop_spec hlane offset (buf.length + 1) m true buf
      (offset / g.blockSize) (offset % g.blockSize) hgood (hbo offset)
      ((Nat.dvd_mod_iff (sectorSize_dvd g)).mpr hoffset) hbuf (Nat.lt_succ_self _)
    rw [Nat.div_add_mod'] at hspec
    refine ⟨?_, fun m' data h => ?_⟩
    · rw [request, Option.isSome_map]
      exact hspec.1
    · obtain ⟨o, ho, heq⟩ := Option.map_eq_some_iff.mp h
      cases heq
      obtain ⟨_, hgood', hcontent⟩ := hspec.2 o.1 o.2 ho
      exact ⟨hgood', hcontent, rfl⟩
  | read size offset whole =>
    have hspec := diskReadLoop_spec offset (size + 1) m size (offset / g.blockSize)
      (offset % g.blockSize) hgood (hbo offset) (Nat.lt_succ_self _)
    rw [Nat.div_add_mod'] at hspec
    refine ⟨hspec.1, fun m' data h => ?_⟩
    obtain ⟨hgood', hcontent, hlength, hreads⟩ := hspec.2 m' data h
    exact ⟨hgood', hcontent, hlength, hreads⟩
  | trim ranges whole =>
    obtain ⟨m1, hm1, hgood1, hcontent⟩ := trimProcess_spec hlane ranges m hgood whole
    rw [request, hm1]
    refine ⟨⟨fun _ => trivial, fun _ => rfl⟩, fun m' data h => ?_⟩
    cases h
    exact ⟨hgood1, hcontent, rfl⟩

/-- The requests, one after the other, are carried out as on the array `a`, and the blocks
are in order before and after each. -/
def AsArray (lane : Nat) : List Request → VirtualMemory g → (Nat → UInt8) → Prop
  | [], m, _ => Good m
  | r :: rest, m, a =>
    Good m ∧ ∃ m' data, request lane m r = some (m', data) ∧ r.Answers a data ∧
      AsArray lane rest m' (r.apply a)

/-- Each of the requests fits when it comes. -/
def RunFits (lane : Nat) : List Request → VirtualMemory g → Prop
  | [], _ => True
  | r :: rest, m =>
    r.Fits m ∧ ∀ m' data, request lane m r = some (m', data) → RunFits lane rest m'

theorem asArray_iff (hlane : Lanes lane) :
    ∀ (rs : List Request) (m : VirtualMemory g), Good m →
      (AsArray lane rs m (content m) ↔ RunFits lane rs m) := by
  intro rs
  induction rs with
  | nil => exact fun m hgood => ⟨fun _ => trivial, fun _ => hgood⟩
  | cons r rest ih =>
    intro m hgood
    obtain ⟨hfits, hresult⟩ := request_spec hlane hgood r
    refine ⟨fun h => ?_, fun h => ?_⟩
    · obtain ⟨_, m', data, hm', _, hrest⟩ := h
      refine ⟨hfits.mp (by rw [hm']; rfl), fun m2 data2 h2 => ?_⟩
      obtain ⟨rfl, rfl⟩ := Prod.mk.inj (Option.some.inj (hm'.symm.trans h2))
      obtain ⟨hgood', hcontent, _⟩ := hresult m' data hm'
      rw [← hcontent] at hrest
      exact (ih m' hgood').mp hrest
    · obtain ⟨hfit, hrest⟩ := h
      obtain ⟨⟨m', data⟩, hm'⟩ := Option.isSome_iff_exists.mp (hfits.mpr hfit)
      obtain ⟨hgood', hcontent, hanswers⟩ := hresult m' data hm'
      refine ⟨hgood, m', data, hm', hanswers, ?_⟩
      rw [← hcontent]
      exact (ih m' hgood').mpr (hrest m' data hm')

theorem getElem?_init {uSize i : Nat} : (init g uSize).table[i]?.join = none := by
  rw [init, getElem?_replicate]
  split <;> rfl

theorem content_init (uSize : Nat) : content (init g uSize) = fun _ => 0 := by
  funext a
  rw [content, getElem?_init]
  rfl

theorem good_init (uSize : Nat) : Good (init g uSize) := by
  refine ⟨fun i b h => ?_, ?_⟩
  · have hnone := @getElem?_init g uSize i
    rw [h] at hnone
    cases hnone
  · show 0 = _
    rw [init, countP_replicate]
    rfl

/-- **The RAM disk is an array of bytes**, of zeros at first, as long as the requests
fit. -/
theorem init_asArray_iff {lane : Nat} (hlane : Lanes lane) (g : Geometry) (uSize : Nat)
    (rs : List Request) :
    AsArray lane rs (init g uSize) (fun _ => 0) ↔ RunFits lane rs (init g uSize) := by
  rw [← content_init (g := g) uSize]
  exact asArray_iff hlane rs (init g uSize) (good_init uSize)

/-- A sector behind the end of a disk of one block. -/
theorem init_asArray_behind :
    AsArray 16 [.write (List.replicate 512 1) 4096 (by rw [List.length_replicate]; decide)]
      (init (geometry 12) 4096) (fun _ => 0) := by
  refine (init_asArray_iff (.inr (.inl rfl)) (geometry 12) 4096 _).mpr
    ⟨.inr (.inl ⟨?_, ?_⟩), fun _ _ _ => trivial⟩
  · rw [(init (geometry 12) 4096).table_length]
    decide
  · rw [length_replicate]
    decide

/-- Three blocks at the beginning of a disk of one block. -/
theorem init_not_asArray :
    ¬ ∀ (lane : Nat) (g : Geometry) (uSize : Nat) (rs : List Request), Lanes lane →
      AsArray lane rs (init g uSize) (fun _ => 0) := by
  intro h
  have hwrite := h 16 (geometry 12) 4096
    [.write (List.replicate 12288 1) 0 (by rw [length_replicate]; decide)]
      (.inr (.inl rfl))
  rw [← content_init (g := geometry 12) 4096] at hwrite
  obtain ⟨hfits, _⟩ :=
    (asArray_iff (.inr (.inl rfl)) _ _ (good_init (g := geometry 12) 4096)).mp hwrite
  have hlength : (init (geometry 12) 4096).table.length = 1 :=
    (init (geometry 12) 4096).table_length
  have hblock : (geometry 12).blockSize = 4096 := rfl
  have hlast : lastIndex (geometry 12) 0 12288 = 2 := rfl
  rw [Request.Fits, Fits, length_replicate, hlast, hlength, hblock] at hfits
  omega

end Sandboxie.ImBox
