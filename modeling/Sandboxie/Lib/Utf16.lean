import Mathlib.Algebra.Order.Ring.Int
import Mathlib.Data.List.Basic

/-!
# UTF-16 and UTF-8

Text as UTF-16 code units, its characters, and its bytes in UTF-8.  A surrogate without its
partner becomes the replacement character, so only well-formed text can be told from its bytes.
-/

namespace Sandboxie.Utf16

def IsHigh (c : Nat) : Prop := 0xD800 ≤ c ∧ c < 0xDC00

def IsLow (c : Nat) : Prop := 0xDC00 ≤ c ∧ c < 0xE000

instance (c : Nat) : Decidable (IsHigh c) := inferInstanceAs (Decidable (_ ∧ _))

instance (c : Nat) : Decidable (IsLow c) := inferInstanceAs (Decidable (_ ∧ _))

/-- The character of a unit that is not in a pair. -/
def single (c : Nat) : Char := if IsHigh c ∨ IsLow c then Char.ofNat 0xFFFD else Char.ofNat c

def pair (c d : Nat) : Char := Char.ofNat (0x10000 + (c - 0xD800) * 0x400 + (d - 0xDC00))

def chars : List Nat → List Char
  | [] => []
  | [c] => [single c]
  | c :: d :: s => if IsHigh c ∧ IsLow d then pair c d :: chars s else single c :: chars (d :: s)

def units (c : Char) : List Nat :=
  if c.toNat < 0x10000 then [c.toNat]
  else [0xD800 + (c.toNat - 0x10000) / 0x400, 0xDC00 + (c.toNat - 0x10000) % 0x400]

def IsSingle (c : Nat) : Prop := ¬IsHigh c ∧ ¬IsLow c ∧ c < 0x10000

instance (c : Nat) : Decidable (IsSingle c) := inferInstanceAs (Decidable (_ ∧ _))

/-- Every surrogate has its partner. -/
def WellFormed : List Nat → Prop
  | [] => True
  | [c] => IsSingle c
  | c :: d :: s => if IsHigh c ∧ IsLow d then WellFormed s else IsSingle c ∧ WellFormed (d :: s)

def utf8 (s : List Nat) : List UInt8 := (chars s).flatMap String.utf8EncodeChar

theorem toNat_ofNat {n : Nat} (h : n.isValidChar) : (Char.ofNat n).toNat = n := by
  unfold Char.ofNat
  rw [dif_pos h]
  rfl

theorem units_single {c : Nat} (h : IsSingle c) : units (single c) = [c] := by
  obtain ⟨hhigh, hlow, hlt⟩ := h
  have hvalid : c.isValidChar := by
    unfold IsHigh at hhigh
    unfold IsLow at hlow
    show c < 0xD800 ∨ (0xDFFF < c ∧ c < 0x110000)
    omega
  unfold single units
  rw [if_neg (not_or.mpr ⟨hhigh, hlow⟩), toNat_ofNat hvalid, if_pos hlt]

theorem units_pair {c d : Nat} (hc : IsHigh c) (hd : IsLow d) : units (pair c d) = [c, d] := by
  obtain ⟨hc₁, hc₂⟩ := hc
  obtain ⟨hd₁, hd₂⟩ := hd
  obtain ⟨i, rfl⟩ := Nat.exists_eq_add_of_le hc₁
  obtain ⟨j, rfl⟩ := Nat.exists_eq_add_of_le hd₁
  have hi : i < 0x400 := by omega
  have hj : j < 0x400 := by omega
  unfold pair
  rw [Nat.add_sub_cancel_left, Nat.add_sub_cancel_left]
  have hvalid : (0x10000 + i * 0x400 + j).isValidChar := Or.inr ⟨by omega, by omega⟩
  have hsub : 0x10000 + i * 0x400 + j - 0x10000 = i * 0x400 + j := by omega
  unfold units
  rw [toNat_ofNat hvalid, if_neg (by omega), hsub]
  have hdiv : (i * 0x400 + j) / 0x400 = i := by omega
  have hmod : (i * 0x400 + j) % 0x400 = j := by omega
  rw [hdiv, hmod]

theorem units_chars {s : List Nat} (h : WellFormed s) : (chars s).flatMap units = s := by
  induction s using chars.induct with
  | case1 => rfl
  | case2 c => exact (List.append_nil _).trans (units_single h)
  | case3 c d s hpair ih =>
    rw [WellFormed, if_pos hpair] at h
    rw [chars, if_pos hpair, List.flatMap_cons, ih h, units_pair hpair.1 hpair.2]
    rfl
  | case4 c d s hpair ih =>
    rw [WellFormed, if_neg hpair] at h
    rw [chars, if_neg hpair, List.flatMap_cons, ih h.2, units_single h.1]
    rfl

theorem encode_injective {l l' : List Char}
    (h : l.flatMap String.utf8EncodeChar = l'.flatMap String.utf8EncodeChar) : l = l' := by
  have hbytes : l.utf8Encode = l'.utf8Encode := congrArg List.toByteArray h
  have hdecode := congrArg ByteArray.utf8Decode? hbytes
  rw [List.utf8Decode?_utf8Encode, List.utf8Decode?_utf8Encode] at hdecode
  exact List.toArray_inj (Option.some.inj hdecode)

theorem utf8_injective {s t : List Nat} (hs : WellFormed s) (ht : WellFormed t)
    (h : utf8 s = utf8 t) : s = t := by
  rw [← units_chars hs, ← units_chars ht, encode_injective h]

end Sandboxie.Utf16
