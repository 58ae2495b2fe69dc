import Mathlib.Algebra.Order.Ring.Int
import Mathlib.Data.List.GetD

/-!
# Buffers of bytes

A buffer is a list of bytes.  `splice` copies bytes into it at an offset and `u32` reads
a little-endian word; both are described byte by byte (`byteAt`), so that what a copy
leaves alone is a matter of offsets.
-/

namespace Bytes

open List

def byteAt (b : List UInt8) (i : Nat) : UInt8 := b.getD i 0

/-- Copy `d` into `b` at `off`. -/
def splice (b : List UInt8) (off : Nat) (d : List UInt8) : List UInt8 :=
  b.take off ++ d ++ b.drop (off + d.length)

def u32 (b : List UInt8) (off : Nat) : Nat :=
  (byteAt b off).toNat + 2 ^ 8 * (byteAt b (off + 1)).toNat + 2 ^ 16 * (byteAt b (off + 2)).toNat +
    2 ^ 24 * (byteAt b (off + 3)).toNat

def ofU32 (n : Nat) : List UInt8 :=
  [UInt8.ofNat n, UInt8.ofNat (n / 2 ^ 8), UInt8.ofNat (n / 2 ^ 16), UInt8.ofNat (n / 2 ^ 24)]

@[simp] theorem length_ofU32 (n : Nat) : (ofU32 n).length = 4 := rfl

/-! ### Copying -/

variable {b : List UInt8}

variable {n i : Nat}

theorem byteAt_take (h : i < n) :
    byteAt (b.take n) i = byteAt b i := by
  rw [byteAt, byteAt, getD_eq_getElem?_getD, getD_eq_getElem?_getD,
    getElem?_take_of_lt h]

theorem byteAt_drop (b : List UInt8) (n i : Nat) : byteAt (b.drop n) i = byteAt b (n + i) := by
  rw [byteAt, byteAt, getD_eq_getElem?_getD, getD_eq_getElem?_getD, getElem?_drop]

theorem byteAt_set (c : UInt8) (h : i < b.length) :
    byteAt (b.set i c) i = c := by
  rw [byteAt, getD_eq_getElem?_getD, getElem?_set_self h]
  rfl

theorem byteAt_set_of_ne {j : Nat} {c : UInt8} (h : i ≠ j) :
    byteAt (b.set i c) j = byteAt b j := by
  rw [byteAt, byteAt, getD_eq_getElem?_getD, getD_eq_getElem?_getD,
    getElem?_set_ne h]

theorem set_byteAt {c : UInt8} (h : i < b.length)
    (hc : byteAt b i = c) : b.set i c = b := by
  rw [byteAt, getD_eq_getElem?_getD, getElem?_eq_getElem h] at hc
  have hget : b[i] = c := hc
  rw [← hget]
  exact set_getElem_self h

variable {b d : List UInt8} {off : Nat}

theorem length_splice (h : off + d.length ≤ b.length) :
    (splice b off d).length = b.length := by
  simp only [splice, length_append, length_take, length_drop]
  omega

variable {off : Nat}

theorem byteAt_splice_of_lt (h : off ≤ b.length) (hi : i < off) :
    byteAt (splice b off d) i = byteAt b i := by
  have hlen : (b.take off).length = off := by rw [length_take]; omega
  rw [byteAt, splice, append_assoc, getD_append _ _ _ _ (by omega), byteAt,
    getD_eq_getElem?_getD, getD_eq_getElem?_getD, getElem?_take_of_lt hi]

theorem byteAt_splice_of_mem (h : off ≤ b.length)
    (hi : i < d.length) : byteAt (splice b off d) (off + i) = byteAt d i := by
  have hlen : (b.take off).length = off := by rw [length_take]; omega
  rw [byteAt, splice, append_assoc, getD_append_right _ _ _ _ (by omega), hlen,
    Nat.add_sub_cancel_left, getD_append _ _ _ _ hi, byteAt]

theorem byteAt_splice_of_ge (h : off + d.length ≤ b.length)
    (hi : off + d.length ≤ i) : byteAt (splice b off d) i = byteAt b i := by
  have hlen : (b.take off ++ d).length = off + d.length := by
    rw [length_append, length_take]; omega
  rw [byteAt, splice, getD_append_right _ _ _ _ (by omega), hlen, byteAt,
    getD_eq_getElem?_getD, getD_eq_getElem?_getD, getElem?_drop]
  congr 2
  omega

theorem byteAt_splice (h : off + d.length ≤ b.length) :
    byteAt (splice b off d) i =
      if off ≤ i ∧ i < off + d.length then byteAt d (i - off) else byteAt b i := by
  by_cases hin : off ≤ i ∧ i < off + d.length
  · have hmem := byteAt_splice_of_mem (show off ≤ b.length by omega)
      (show i - off < d.length by omega)
    rw [Nat.add_sub_cancel' hin.1] at hmem
    rw [if_pos hin, hmem]
  · rw [if_neg hin]
    by_cases hlt : i < off
    · exact byteAt_splice_of_lt (by omega) hlt
    · exact byteAt_splice_of_ge h (by omega)

theorem byteAt_of_le (h : b.length ≤ i) : byteAt b i = 0 :=
  getD_eq_default _ _ h

theorem byteAt_replicate (n i : Nat) : byteAt (List.replicate n 0) i = 0 := by
  by_cases h : i < n
  · rw [byteAt, getD_eq_getElem?_getD, getElem?_replicate_of_lt h]
    rfl
  · exact byteAt_of_le (by rw [length_replicate]; omega)

theorem take_splice (h : off ≤ b.length) :
    (splice b off d).take (off + d.length) = b.take off ++ d := by
  have hlen : (b.take off ++ d).length = off + d.length := by
    rw [length_append, length_take]; omega
  rw [splice, ← hlen, take_left']
  rfl

theorem drop_splice (h : off + d.length ≤ b.length)
    (hn : off + d.length ≤ n) : (splice b off d).drop n = b.drop n := by
  have hlen : (b.take off ++ d).length = off + d.length := by
    rw [length_append, length_take]; omega
  rw [splice, drop_append, drop_of_length_le (by omega), nil_append, hlen,
    drop_drop]
  congr 1
  omega

/-! ### Words -/

variable {b b' : List UInt8}

theorem u32_congr {off' : Nat}
    (h : ∀ i < 4, byteAt b (off + i) = byteAt b' (off' + i)) : u32 b off = u32 b' off' := by
  have h0 := h 0 (by omega)
  have h1 := h 1 (by omega)
  have h2 := h 2 (by omega)
  have h3 := h 3 (by omega)
  rw [Nat.add_zero, Nat.add_zero] at h0
  rw [u32, u32, h0, h1, h2, h3]

theorem u32_take (h : off + 4 ≤ n) :
    u32 (b.take n) off = u32 b off :=
  u32_congr fun i hi => byteAt_take (by omega)

theorem u32_lt (b : List UInt8) (off : Nat) : u32 b off < 2 ^ 32 := by
  have h0 := (byteAt b off).toNat_lt
  have h1 := (byteAt b (off + 1)).toNat_lt
  have h2 := (byteAt b (off + 2)).toNat_lt
  have h3 := (byteAt b (off + 3)).toNat_lt
  unfold u32
  omega

theorem u32_lt_of_high (h : byteAt b (off + 3) = 0) :
    u32 b off < 2 ^ 24 := by
  have h0 := (byteAt b off).toNat_lt
  have h1 := (byteAt b (off + 1)).toNat_lt
  have h2 := (byteAt b (off + 2)).toNat_lt
  have h3 : (byteAt b (off + 3)).toNat = 0 := by rw [h]; rfl
  unfold u32
  omega

theorem high_of_u32_lt (h : u32 b off < 2 ^ 24) :
    byteAt b (off + 3) = 0 := by
  have h3 : (byteAt b (off + 3)).toNat = 0 := by
    unfold u32 at h
    omega
  exact UInt8.toNat_inj.mp (by rw [h3]; rfl)

theorem u32_ofU32 (h : n < 2 ^ 32) : u32 (ofU32 n) 0 = n := by
  simp only [u32, byteAt, ofU32, getD_cons_zero, getD_cons_succ, UInt8.toNat_ofNat']
  omega

theorem ofU32_u32 (b : List UInt8) (off : Nat) : ofU32 (u32 b off) =
    [byteAt b off, byteAt b (off + 1), byteAt b (off + 2), byteAt b (off + 3)] := by
  have h0 := (byteAt b off).toNat_lt
  have h1 := (byteAt b (off + 1)).toNat_lt
  have h2 := (byteAt b (off + 2)).toNat_lt
  have h3 := (byteAt b (off + 3)).toNat_lt
  have hbyte : ∀ (n : Nat) (c : UInt8), n % 2 ^ 8 = c.toNat → UInt8.ofNat n = c := by
    intro n c h
    exact UInt8.toNat_inj.mp (by rw [UInt8.toNat_ofNat', h])
  rw [ofU32, hbyte _ (byteAt b off), hbyte _ (byteAt b (off + 1)), hbyte _ (byteAt b (off + 2)),
    hbyte _ (byteAt b (off + 3))]
  all_goals
    unfold u32
    omega

theorem byteAt_ofU32_u32 (b : List UInt8) (hi : i < 4) :
    byteAt (ofU32 (u32 b 0)) i = byteAt b i := by
  rw [ofU32_u32]
  match i, hi with
  | 0, _ | 1, _ | 2, _ | 3, _ => rfl

theorem u32_splice_of_repeats {o : Nat} (h : off + d.length ≤ b.length)
    (hd : ∀ i < d.length, o ≤ off + i → off + i < o + 4 → byteAt d i = byteAt b (off + i)) :
    u32 (splice b off d) o = u32 b o := by
  refine u32_congr fun i hi => ?_
  by_cases hlt : o + i < off
  · exact byteAt_splice_of_lt (by omega) hlt
  · by_cases hge : off + d.length ≤ o + i
    · exact byteAt_splice_of_ge h hge
    · have hmem := hd (o + i - off) (by omega) (by omega) (by omega)
      have heq : off + (o + i - off) = o + i := by omega
      rw [← heq, byteAt_splice_of_mem (by omega) (by omega), hmem]

theorem u32_splice_of_disjoint {o : Nat} (h : off + d.length ≤ b.length)
    (ho : o + 4 ≤ off ∨ off + d.length ≤ o) : u32 (splice b off d) o = u32 b o :=
  u32_splice_of_repeats h fun i hi _ _ => by omega

theorem u32_splice_of_mem {o : Nat} (h : off ≤ b.length)
    (ho : o + 4 ≤ d.length) : u32 (splice b off d) (off + o) = u32 d o := by
  refine u32_congr fun i hi => ?_
  rw [Nat.add_assoc]
  exact byteAt_splice_of_mem h (by omega)

/-! ### Short words -/

def u16 (b : List UInt8) (off : Nat) : Nat :=
  (byteAt b off).toNat + 2 ^ 8 * (byteAt b (off + 1)).toNat

def ofU16 (n : Nat) : List UInt8 := [UInt8.ofNat n, UInt8.ofNat (n / 2 ^ 8)]

@[simp] theorem length_ofU16 (n : Nat) : (ofU16 n).length = 2 := rfl

theorem u16_congr {off' : Nat}
    (h : ∀ i < 2, byteAt b (off + i) = byteAt b' (off' + i)) : u16 b off = u16 b' off' := by
  have h0 := h 0 (by omega)
  have h1 := h 1 (by omega)
  rw [Nat.add_zero, Nat.add_zero] at h0
  rw [u16, u16, h0, h1]

theorem u16_ofU16 (h : n < 2 ^ 16) : u16 (ofU16 n) 0 = n := by
  simp only [u16, byteAt, ofU16, getD_cons_zero, getD_cons_succ, UInt8.toNat_ofNat']
  omega

theorem u16_splice_of_disjoint {o : Nat} (h : off + d.length ≤ b.length)
    (ho : o + 2 ≤ off ∨ off + d.length ≤ o) : u16 (splice b off d) o = u16 b o := by
  refine u16_congr fun i hi => ?_
  rcases ho with ho | ho
  · exact byteAt_splice_of_lt (by omega) (by omega)
  · exact byteAt_splice_of_ge h (by omega)

theorem u16_splice (h : off ≤ b.length) (hd : d.length = 2) :
    u16 (splice b off d) off = u16 d 0 := by
  refine u16_congr fun i hi => ?_
  rw [Nat.zero_add]
  exact byteAt_splice_of_mem h (by omega)

def ofU64 (n : Nat) : List UInt8 := ofU32 n ++ ofU32 (n / 2 ^ 32)

@[simp] theorem length_ofU64 (n : Nat) : (ofU64 n).length = 8 := rfl

/-! ### Parts of a buffer -/

theorem byteAt_of_drop (h : b.drop n = b'.drop n)
    (hi : n ≤ i) : byteAt b i = byteAt b' i := by
  have hi : i = n + (i - n) := by omega
  rw [hi, ← byteAt_drop, h, byteAt_drop]

theorem u32_of_drop {o : Nat} (h : b.drop n = b'.drop n) (ho : n ≤ o) :
    u32 b o = u32 b' o :=
  u32_congr fun _ _ => byteAt_of_drop h (by omega)

theorem u16_of_drop {o : Nat} (h : b.drop n = b'.drop n) (ho : n ≤ o) :
    u16 b o = u16 b' o :=
  u16_congr fun _ _ => byteAt_of_drop h (by omega)

theorem drop_of_drop {o : Nat} (h : b.drop n = b'.drop n) (ho : n ≤ o) :
    b.drop o = b'.drop o := by
  have ho : o = n + (o - n) := by omega
  rw [ho, ← drop_drop, h, drop_drop]

theorem part_splice_of_le {o : Nat} (h : off ≤ b.length)
    (hn : o + n ≤ off) : ((splice b off d).drop o).take n = (b.drop o).take n := by
  have hlen : (b.take off).length = off := by
    rw [length_take]
    omega
  rw [splice, append_assoc, drop_append_of_le_length (by omega),
    take_append_of_le_length (by rw [length_drop]; omega), drop_take,
    take_take, Nat.min_eq_left (by omega)]

theorem part_splice (h : off ≤ b.length) :
    ((splice b off d).drop off).take d.length = d := by
  have hlen : (b.take off).length = off := by
    rw [length_take]
    omega
  rw [splice, append_assoc, drop_append_of_le_length (by omega),
    drop_of_length_le (by omega), nil_append, take_left]

end Bytes
