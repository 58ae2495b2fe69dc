import Sandboxie.ImBox.VirtualMemoryIO
import Sandboxie.Lib.Cells

/-!
# The variants of `data_search`

`SandboxieTools/ImBox/ImDiskIO.cpp`.  The buffer stands at some address.  A load of an element is
`none` outside of the buffer, and for the vector types where the address does not have the
alignment of the type.  Each of the variants puts a sentinel into the last element for its loop,
and is `dataSearch` with its own size.
-/

namespace Sandboxie.ImBox

open Bytes Cells List

/-! ### The intrinsics -/

/-- `_mm_cmpeq_epi8` -/
def mmCmpeqEpi8 (a b : List UInt8) : List UInt8 :=
  List.zipWith (fun x y => if x = y then 0xFF else 0) a b

/-- `_mm_movemask_epi8`: the highest bit of each byte. -/
def mmMovemaskEpi8 : List UInt8 → Nat
  | [] => 0
  | x :: rest => x.toNat / 128 + 2 * mmMovemaskEpi8 rest

/-- `_mm256_testz_si256`: no bit is set in both. -/
def mm256TestzSi256 (a b : List UInt8) : Bool :=
  (List.zipWith (fun x y => x &&& y) a b).all (· = 0)

/-! ### The code -/

/-- What a pointer of a variant points to: the size and the alignment of the type, the test for
zero, and the bytes of a number that is stored at `end_ptr`. -/
structure Element where
  lane : Nat
  align : Nat
  isZero : List UInt8 → Bool
  bytes : Nat → List UInt8

namespace Element

def load (e : Element) (addr : Nat) (ptr : List UInt8) (pos : Nat) : Option (List UInt8) :=
  if e.align ∣ addr + pos ∧ pos + e.lane ≤ ptr.length then some ((ptr.drop pos).take e.lane)
  else none

/-- The loop; `fuel` is a number of elements. -/
def scan (e : Element) (addr : Nat) (ptr : List UInt8) : Nat → Nat → Option Nat
  | 0, _ => none
  | fuel + 1, pos =>
    (e.load addr ptr pos).bind fun v =>
      if e.isZero v then scan e addr ptr fuel (pos + e.lane) else some pos

/-- The result, and what is in the buffer then. -/
def search (e : Element) (addr : Nat) (ptr : List UInt8) : Option (Bool × List UInt8) :=
  if ptr.length = 0 then some (false, ptr)
  else
    let endPtr := ptr.length - e.lane
    (e.load addr ptr endPtr).bind fun last =>
      if e.isZero last = false then some (true, ptr)
      else
        (store ptr endPtr (e.bytes 1)).bind fun ptr =>
          (e.scan addr ptr ptr.length 0).bind fun scanPtr =>
            (store ptr endPtr (e.bytes 0)).map fun ptr => (decide (scanPtr ≠ endPtr), ptr)

end Element

inductive Variant
  | std
  | sse2
  | avx
deriving DecidableEq

/-- `long` is read at any address. -/
def Variant.element : Variant → Element
  | .std => ⟨4, 1, fun v => u32 v 0 = 0, ofU32⟩
  | .sse2 =>
    ⟨16, 16, fun v => mmMovemaskEpi8 (mmCmpeqEpi8 v (List.replicate 16 0)) % 2 ^ 16 = 0xFFFF,
      fun n => [n.toUInt8]⟩
  | .avx => ⟨32, 32, fun v => mm256TestzSi256 v (List.replicate 32 0xFF), fun n => [n.toUInt8]⟩

def dataSearchStd : Nat → List UInt8 → Option (Bool × List UInt8) := Variant.std.element.search

def dataSearchSse2 : Nat → List UInt8 → Option (Bool × List UInt8) := Variant.sse2.element.search

def dataSearchAvx : Nat → List UInt8 → Option (Bool × List UInt8) := Variant.avx.element.search

def Variant.run : Variant → Nat → List UInt8 → Option (Bool × List UInt8)
  | .std => dataSearchStd
  | .sse2 => dataSearchSse2
  | .avx => dataSearchAvx

/-! ### The elements -/

/-- The test is for zeros, and a number that is stored is one byte, with zeros behind it. -/
structure Element.Sound (e : Element) : Prop where
  pos : 0 < e.lane
  align : e.align ∣ e.lane
  zero : ∀ v : List UInt8, v.length = e.lane → (e.isZero v = true ↔ ∀ x ∈ v, x = 0)
  bytes : ∃ k, k < e.lane ∧ ∀ n, n < 2 → e.bytes n = n.toUInt8 :: List.replicate k 0

theorem mmMovemaskEpi8_lt (v : List UInt8) : mmMovemaskEpi8 v < 2 ^ v.length := by
  induction v with
  | nil => simp [mmMovemaskEpi8]
  | cons x rest ih =>
    have hx := x.toNat_lt
    simp only [mmMovemaskEpi8, length_cons, Nat.pow_succ]
    omega

theorem mmMovemaskEpi8_cmpeq (v : List UInt8) :
    mmMovemaskEpi8 (mmCmpeqEpi8 v (List.replicate v.length 0)) + 1 = 2 ^ v.length ↔
      ∀ x ∈ v, x = 0 := by
  induction v with
  | nil => simp [mmMovemaskEpi8, mmCmpeqEpi8]
  | cons x rest ih =>
    have hstep : mmMovemaskEpi8 (mmCmpeqEpi8 (x :: rest) (List.replicate (x :: rest).length 0)) =
        (if x = 0 then 1 else 0) +
          2 * mmMovemaskEpi8 (mmCmpeqEpi8 rest (List.replicate rest.length 0)) := by
      by_cases hx : x = 0 <;>
        simp [mmMovemaskEpi8, mmCmpeqEpi8, replicate_succ, hx]
    rw [hstep, forall_mem_cons, ← ih, length_cons, Nat.pow_succ]
    by_cases hx : x = 0
    · simp only [hx, if_true, true_and]
      omega
    · simp only [hx, if_false, false_and, iff_false]
      omega

theorem Variant.sound (v : Variant) : v.element.Sound := by
  cases v with
  | std =>
    refine ⟨by decide, by decide, fun v hv => ?_, 3, by decide, fun n hn => ?_⟩
    · obtain ⟨a, b, c, d, rfl⟩ := length_eq_four.mp (show v.length = 4 from hv)
      simp only [forall_mem_cons, forall_mem_nil, and_true]
      simp [Variant.element, u32, byteAt, ← UInt8.toNat_inj]
      omega
    · obtain rfl | rfl : n = 0 ∨ n = 1 := by omega
      · decide
      · decide
  | sse2 =>
    refine ⟨by decide, by decide, fun v hv => ?_, 0, by decide, fun n hn => rfl⟩
    have hv : v.length = 16 := hv
    have hlt := mmMovemaskEpi8_lt (mmCmpeqEpi8 v (List.replicate 16 0))
    have hiff := mmMovemaskEpi8_cmpeq v
    rw [mmCmpeqEpi8, length_zipWith, length_replicate, hv, Nat.min_self] at hlt
    rw [hv] at hiff
    simp only [Variant.element, decide_eq_true_eq, ← hiff]
    simp only [mmCmpeqEpi8] at hlt ⊢
    omega
  | avx =>
    refine ⟨by decide, by decide, fun v hv => ?_, 0, by decide, fun n hn => rfl⟩
    have hand : ∀ v : List UInt8,
        List.zipWith (fun x y => x &&& y) v (List.replicate v.length 0xFF) = v := by
      intro v
      induction v with
      | nil => rfl
      | cons x rest ih =>
        have hx : x &&& 255 = x := by
          apply UInt8.toNat_inj.mp
          rw [UInt8.toNat_and]
          exact Nat.and_two_pow_sub_one_of_lt_two_pow x.toNat_lt
        simp [replicate_succ, hx, ih]
    have hv : v.length = 32 := hv
    simp only [Variant.element, mm256TestzSi256, ← hv, hand, all_eq_true, decide_eq_true_eq]

/-! ### The search -/

namespace Element

variable {e : Element} {addr : Nat} {ptr : List UInt8}

theorem load_eq (haddr : e.align ∣ addr) (hlane : e.align ∣ e.lane) {pos : Nat}
    (hpos : e.lane ∣ pos) (hle : pos + e.lane ≤ ptr.length) :
    e.load addr ptr pos = some ((ptr.drop pos).take e.lane) :=
  if_pos ⟨Nat.dvd_add haddr (Nat.dvd_trans hlane hpos), hle⟩

theorem Sound.isZero_iff (h : e.Sound) {pos : Nat} (hle : pos + e.lane ≤ ptr.length) :
    e.isZero ((ptr.drop pos).take e.lane) = true ↔ laneHasData e.lane ptr pos = false := by
  rw [h.zero _ (by simp; omega), laneHasData, any_eq_false]
  simp

theorem Sound.scan_eq (h : e.Sound) (haddr : e.align ∣ addr) (hdvd : e.lane ∣ ptr.length)
    (hlast : laneHasData e.lane ptr (ptr.length - e.lane) = true) :
    ∀ fuel pos, e.lane ∣ pos → pos + e.lane ≤ ptr.length → ptr.length - pos ≤ fuel →
      e.scan addr ptr fuel pos = some (scanLanes e.lane ptr fuel pos) := by
  have hpos := h.pos
  intro fuel
  induction fuel with
  | zero =>
    intro pos _ hle hfuel
    omega
  | succ fuel ih =>
    intro pos hlane hle hfuel
    rw [scan, scanLanes, load_eq haddr h.align hlane hle, Option.bind_some]
    by_cases hdata : laneHasData e.lane ptr pos = true
    · rw [if_neg (by rw [h.isZero_iff hle, hdata]; decide), if_pos hdata]
    · rw [if_pos ((h.isZero_iff hle).mpr (by simpa using hdata)), if_neg hdata]
      have hne : pos ≠ ptr.length - e.lane := by
        rintro rfl
        exact hdata hlast
      have hnext := Nat.le_of_dvd (by omega) (Nat.dvd_sub (Nat.dvd_sub hdvd hlane) (Nat.dvd_refl _))
      exact ih _ (Nat.dvd_add hlane (Nat.dvd_refl _)) (by omega) (by omega)

theorem Sound.search_eq (h : e.Sound) (haddr : e.align ∣ addr) (hdvd : e.lane ∣ ptr.length) :
    e.search addr ptr = some (dataSearch e.lane ptr, ptr) := by
  rw [search, dataSearch]
  by_cases hzero : ptr.length = 0
  · simp [hzero]
  have hpos := h.pos
  have hle := Nat.le_of_dvd (by omega) hdvd
  have hend : ptr.length - e.lane + e.lane ≤ ptr.length := Nat.le_of_eq (Nat.sub_add_cancel hle)
  rw [if_neg hzero, if_neg hzero]
  dsimp only
  rw [load_eq haddr h.align (Nat.dvd_sub hdvd (Nat.dvd_refl _)) hend, Option.bind_some]
  by_cases hlast : laneHasData e.lane ptr (ptr.length - e.lane) = true
  · have hnot := mt (h.isZero_iff hend).mp (by rw [hlast]; decide)
    rw [if_pos (by simpa using hnot), if_pos hlast]
  have hall := (h.isZero_iff hend).mpr (by simpa using hlast)
  rw [if_neg (by rw [hall]; decide), if_neg hlast]
  -- the buffer ends with zeros, of which the first one is the sentinel
  obtain ⟨k, hk, hbytes⟩ := h.bytes
  obtain ⟨front, hfront, rfl⟩ : ∃ front, front.length = ptr.length - e.lane ∧
      ptr = front ++ 0 :: List.replicate (e.lane - 1) 0 := by
    refine ⟨ptr.take (ptr.length - e.lane), by simp, ?_⟩
    have hcell := (h.zero _ (by simp; omega)).mp hall
    rw [take_of_length_le (by simp; omega)] at hcell
    rw [← replicate_succ, Nat.sub_add_cancel hpos]
    conv_lhs => rw [← take_append_drop (ptr.length - e.lane) ptr]
    congr 1
    exact eq_replicate_iff.mpr ⟨by simp; omega, hcell⟩
  have hstore : ∀ n m : Nat, m < 2 → store (front ++ n.toUInt8 :: List.replicate (e.lane - 1) 0)
      front.length (e.bytes m) = some (front ++ m.toUInt8 :: List.replicate (e.lane - 1) 0) := by
    intro n m hm
    have hrow : List.replicate k (0 : UInt8) ++ List.replicate (e.lane - 1 - k) 0 =
        List.replicate (e.lane - 1) 0 := by
      rw [replicate_append_replicate]
      congr 1
      omega
    rw [hbytes m hm, store_eq (by simp; omega), splice_append]
    simp [drop_replicate, hrow]
  have hset : (front ++ 0 :: List.replicate (e.lane - 1) 0).set front.length (1 : UInt8) =
      front ++ (1 : Nat).toUInt8 :: List.replicate (e.lane - 1) 0 := by
    simp
  have hfirst := hstore 0 1 (by decide)
  have hsecond := hstore 1 0 (by decide)
  rw [← hfront, hset]
  rw [show ((0 : Nat).toUInt8) = 0 from rfl] at hfirst hsecond
  generalize hmarked : front ++ (1 : Nat).toUInt8 :: List.replicate (e.lane - 1) 0 = marked at *
  have hlength : marked.length =
      (front ++ 0 :: List.replicate (e.lane - 1) (0 : UInt8)).length := by
    simp [← hmarked]
  have hsentinel : laneHasData e.lane marked (marked.length - e.lane) = true := by
    rw [hlength, ← hfront, ← hmarked, laneHasData, drop_left]
    obtain ⟨n, hn⟩ : ∃ n, e.lane = n + 1 := ⟨e.lane - 1, by omega⟩
    simp [hn]
  rw [hfirst, Option.bind_some, h.scan_eq haddr (hlength ▸ hdvd) hsentinel _ 0 (Nat.dvd_zero _)
    (by omega) (by omega), Option.bind_some, hsecond, hlength]
  simp

end Element

/-- **The variants agree**, for whole elements at an address that the type may stand at. -/
theorem dataSearch_agree (v : Variant) (addr : Nat) (ptr : List UInt8)
    (haddr : v.element.align ∣ addr) (hsize : v.element.lane ∣ ptr.length) :
    v.run addr ptr = some (ptr.any (· ≠ 0), ptr) := by
  have hrun : v.run addr ptr = v.element.search addr ptr := by
    cases v <;> rfl
  rw [hrun, v.sound.search_eq haddr hsize, dataSearch_eq v.sound.pos hsize]

def lastByte : List UInt8 := List.replicate 31 0 ++ [7]

theorem dataSearch_agree_lastByte :
    Variant.sse2.run 32 lastByte = some (lastByte.any (· ≠ 0), lastByte) :=
  dataSearch_agree .sse2 32 lastByte (by decide) (by decide)

/-- A buffer of zeros at an odd address. -/
theorem dataSearchSse2_unaligned :
    ¬∀ (v : Variant) (addr : Nat) (ptr : List UInt8), 32 ∣ ptr.length →
      v.run addr ptr = some (ptr.any (· ≠ 0), ptr) := by
  intro h
  have hrun := h .sse2 1 (List.replicate 32 0) (by decide)
  have hnone : Variant.sse2.run 1 (List.replicate 32 0) = none := by decide
  cases hrun

end Sandboxie.ImBox
