import Sandboxie.Common.Text
import Sandboxie.Lib.Cells

/-!
# Base 64

`common/base64.c`.  An access outside of the table or of the buffer is `none`.
-/

namespace Sandboxie.Base64

open Cells List

/-- `L'='` -/
def pad : WChar := 61

def b64EncodedSize (inlen : Nat) : Nat :=
  (if inlen % 3 ≠ 0 then inlen + (3 - inlen % 3) else inlen) / 3 * 4

def b64Chars : List WChar :=
  range' 65 26 ++ range' 97 26 ++ range' 48 10 ++ [43, 47]

/-- The character for the low six bits. -/
def b64Char (v : Nat) : WChar := b64Chars.getD (v &&& 0x3F) 0

/-- `b64_encode`, with the bytes that its loop has still to do. -/
def b64Encode : List UInt8 → List WChar
  | [] => []
  | [b₀] =>
    let v := b₀.toNat <<< 8 <<< 8
    [b64Char (v >>> 18), b64Char (v >>> 12), pad, pad]
  | [b₀, b₁] =>
    let v := (b₀.toNat <<< 8 ||| b₁.toNat) <<< 8
    [b64Char (v >>> 18), b64Char (v >>> 12), b64Char (v >>> 6), pad]
  | b₀ :: b₁ :: b₂ :: rest =>
    let v := (b₀.toNat <<< 8 ||| b₁.toNat) <<< 8 ||| b₂.toNat
    b64Char (v >>> 18) :: b64Char (v >>> 12) :: b64Char (v >>> 6) :: b64Char v :: b64Encode rest

/-- The loop of `b64_decoded_size`, over the text from its end. -/
def dropPadding : List WChar → UInt64 → UInt64
  | [], ret => ret
  | c :: rest, ret => if c = pad then dropPadding rest (ret - 1) else ret

def b64DecodedSize (text : List WChar) : UInt64 :=
  dropPadding text.reverse (UInt64.ofNat (text.length / 4 * 3))

/-- The entry of a character that is none is `-1`. -/
def b64Invs : List UInt32 :=
  [62] ++ replicate 3 (-1) ++ [63] ++ (range' 52 10).map UInt32.ofNat ++ replicate 7 (-1) ++
    (range' 0 26).map UInt32.ofNat ++ replicate 6 (-1) ++ (range' 26 26).map UInt32.ofNat

/-- `b64_invs[c-43]` -/
def b64Inv (c : WChar) : Option UInt32 := if 43 ≤ c then b64Invs[c - 43]? else none

def b64IsValidChar (c : WChar) : Bool :=
  (48 ≤ c && c ≤ 57) || (65 ≤ c && c ≤ 90) || (97 ≤ c && c ≤ 122) || c = 43 || c = 47 || c = pad

/-- `v = c=='=' ? v << 6 : (v << 6) | b64_invs[c-43]` -/
def b64Next (c : WChar) (v : UInt32) : Option UInt32 :=
  if c = pad then some (v <<< 6) else (b64Inv c).map (v <<< 6 ||| ·)

/-- What a round of the loop of `b64_decode` has in `v`. -/
def b64Value (c₀ c₁ c₂ c₃ : WChar) : Option UInt32 := do
  let v ← b64Inv c₀
  let v := v <<< 6 ||| (← b64Inv c₁)
  b64Next c₃ (← b64Next c₂ v)

/-- The stores of a round of the loop of `b64_decode`. -/
def b64Round (c₀ c₁ c₂ c₃ : WChar) (j : Nat) : Option (List (Nat × List UInt8)) := do
  let v ← b64Value c₀ c₁ c₂ c₃
  some ((j, [(v >>> 16).toUInt8]) ::
    ((if c₂ ≠ pad then [(j + 1, [(v >>> 8).toUInt8])] else []) ++
      if c₃ ≠ pad then [(j + 2, [v.toUInt8])] else []))

/-- The stores of the loop, for the text that it has still to do. -/
def b64Stores : List WChar → Nat → Option (List (Nat × List UInt8))
  | c₀ :: c₁ :: c₂ :: c₃ :: rest, j => do
    some ((← b64Round c₀ c₁ c₂ c₃ j) ++ (← b64Stores rest (j + 3)))
  | _, _ => some []

/-- The text is decoded. -/
def Accepted (text : List WChar) (outlen : Nat) : Prop :=
  (b64DecodedSize text).toNat ≤ outlen ∧ text.length % 4 = 0 ∧
    text.all b64IsValidChar = true

instance (text : List WChar) (outlen : Nat) : Decidable (Accepted text outlen) :=
  inferInstanceAs (Decidable (_ ∧ _ ∧ _))

/-- `b64_decode` into a buffer of `outlen` bytes. -/
def b64Decode (text : List WChar) (out : List UInt8) : Option (Bool × List UInt8) :=
  if Accepted text out.length then
    ((b64Stores text 0).bind (storeAll out)).map (true, ·)
  else some (false, out)

/-! ### Round trip -/

/-- The table turns the alphabet around. -/
theorem b64Inv_b64Char (v : Nat) : b64Inv (b64Char v) = some (UInt32.ofNat (v % 64)) ∧
    b64Char v ≠ pad ∧ b64IsValidChar (b64Char v) = true := by
  have htable : ∀ k < 64, b64Inv (b64Chars.getD k 0) = some (UInt32.ofNat k) ∧
      b64Chars.getD k 0 ≠ pad ∧ b64IsValidChar (b64Chars.getD k 0) = true := by decide
  rw [b64Char, Nat.and_two_pow_sub_one_eq_mod v 6]
  exact htable (v % 64) (Nat.mod_lt v (by decide))

theorem shiftLeft_or (w : Nat) {n k : Nat} (hk : k < 2 ^ n) : w <<< n ||| k = w * 2 ^ n + k := by
  rw [← Nat.shiftLeft_add_eq_or_of_lt hk, Nat.shiftLeft_eq]

/-- Six more bits in `v`. -/
theorem next_bits {v : Nat} (hv : v < 2 ^ 24) :
    UInt32.ofNat (v / 64) <<< 6 ||| UInt32.ofNat (v % 64) = UInt32.ofNat v := by
  have hlow : v % 64 < 2 ^ 6 := Nat.mod_lt v (by decide)
  have hhigh : v / 64 * 2 ^ 6 < 2 ^ 32 := by omega
  have hshift : (6 : UInt32).toNat % 32 = 6 := rfl
  refine UInt32.toNat.inj ?_
  rw [UInt32.toNat_or, UInt32.toNat_shiftLeft, hshift, UInt32.toNat_ofNat', UInt32.toNat_ofNat',
    UInt32.toNat_ofNat', Nat.mod_eq_of_lt (a := v / 64) (by omega), Nat.shiftLeft_eq,
    Nat.mod_eq_of_lt hhigh, ← Nat.shiftLeft_eq, Nat.mod_eq_of_lt (a := v % 64) (by omega),
    shiftLeft_or _ hlow]
  omega

/-- A character of the text for the low bits of `v`, or a `=` where these are zero. -/
def Stands (c : WChar) (v : Nat) : Prop := c = b64Char v ∨ c = pad ∧ v % 64 = 0

theorem b64Next_of_stands {c : WChar} {v : Nat} (hv : v < 2 ^ 24) (hc : Stands c v) :
    b64Next c (UInt32.ofNat (v / 64)) = some (UInt32.ofNat v) := by
  have hbits := next_bits hv
  rw [b64Next]
  rcases hc with rfl | ⟨rfl, hzero⟩
  · rw [if_neg (b64Inv_b64Char v).2.1, (b64Inv_b64Char v).1, Option.map_some, hbits]
  · rw [hzero] at hbits
    rw [if_pos rfl, ← hbits]
    simp

/-- What was put into four characters is in `v` again. -/
theorem b64Value_chars {v : Nat} {c₂ c₃ : WChar} (hv : v < 2 ^ 24)
    (h₂ : Stands c₂ (v >>> 6)) (h₃ : Stands c₃ v) :
    b64Value (b64Char (v >>> 18)) (b64Char (v >>> 12)) c₂ c₃ = some (UInt32.ofNat v) := by
  have h18 : v >>> 18 % 64 = v / 64 / 64 / 64 := by rw [Nat.shiftRight_eq_div_pow]; omega
  have h12 : v >>> 12 = v / 64 / 64 := by rw [Nat.shiftRight_eq_div_pow]; omega
  have h6 : v >>> 6 = v / 64 := Nat.shiftRight_eq_div_pow v 6
  have hsecond := next_bits (v := v / 64 / 64) (by omega)
  rw [h6] at h₂
  simp only [b64Value, (b64Inv_b64Char _).1, h18, h12, hsecond, Option.bind_eq_bind,
    Option.bind_some, b64Next_of_stands (by omega) h₂, b64Next_of_stands hv h₃]

theorem byte_of_bits {v n : Nat} (hv : v < 2 ^ 24) (hn : n < 32) {b : UInt8}
    (hb : v / 2 ^ n % 2 ^ 8 = b.toNat) : (UInt32.ofNat v >>> UInt32.ofNat n).toUInt8 = b := by
  refine UInt8.toNat.inj ?_
  rw [UInt32.toNat_toUInt8, UInt32.toNat_shiftRight, UInt32.toNat_ofNat', UInt32.toNat_ofNat',
    Nat.mod_eq_of_lt (a := v) (by omega), Nat.mod_eq_of_lt (a := n) (by omega),
    Nat.mod_eq_of_lt hn, Nat.shiftRight_eq_div_pow]
  exact hb

theorem b64Round_chars {b₀ b₁ b₂ : UInt8} {v : Nat} (c₂ c₃ : WChar)
    (hv : v = b₀.toNat * 2 ^ 16 + b₁.toNat * 2 ^ 8 + b₂.toNat)
    (h₂ : Stands c₂ (v >>> 6)) (h₃ : Stands c₃ v) (j : Nat) :
    b64Round (b64Char (v >>> 18)) (b64Char (v >>> 12)) c₂ c₃ j =
      some ((j, [b₀]) :: ((if c₂ ≠ pad then [(j + 1, [b₁])] else []) ++
        if c₃ ≠ pad then [(j + 2, [b₂])] else [])) := by
  have hb₀ := b₀.toNat_lt
  have hb₁ := b₁.toNat_lt
  have hb₂ := b₂.toNat_lt
  have hlt : v < 2 ^ 24 := by omega
  have hbyte : (UInt32.ofNat v >>> 16).toUInt8 = b₀ :=
    byte_of_bits (n := 16) hlt (by decide) (by omega)
  have hbyte₁ : (UInt32.ofNat v >>> 8).toUInt8 = b₁ :=
    byte_of_bits (n := 8) hlt (by decide) (by omega)
  have hbyte₂ : (UInt32.ofNat v).toUInt8 = b₂ := by
    simpa using byte_of_bits (n := 0) (b := b₂) hlt (by decide) (by omega)
  rw [b64Round, b64Value_chars hlt h₂ h₃, ← hbyte, ← hbyte₁, ← hbyte₂]
  rfl

/-- A store for each byte. -/
def eachByte : List UInt8 → Nat → List (Nat × List UInt8)
  | [], _ => []
  | b :: bytes, j => (j, [b]) :: eachByte bytes (j + 1)

/-- What `b64_encode` made is decoded into what it was made of. -/
theorem b64Stores_b64Encode (bytes : List UInt8) (j : Nat) :
    b64Stores (b64Encode bytes) j = some (eachByte bytes j) := by
  have hchar := fun v => (b64Inv_b64Char v).2.1
  induction bytes using b64Encode.induct generalizing j with
  | case1 => rfl
  | case2 b₀ =>
    have hv : b₀.toNat <<< 8 <<< 8 = b₀.toNat * 2 ^ 16 + (0 : UInt8).toNat * 2 ^ 8 +
        (0 : UInt8).toNat := by
      simp only [Nat.shiftLeft_eq, UInt8.toNat_zero]
      omega
    have hround := b64Round_chars pad pad hv
      (.inr ⟨rfl, by rw [hv, Nat.shiftRight_eq_div_pow, UInt8.toNat_zero]; omega⟩)
      (.inr ⟨rfl, by rw [hv, UInt8.toNat_zero]; omega⟩)
    simp [b64Encode, b64Stores, hround, eachByte]
  | case3 b₀ b₁ =>
    have hv : (b₀.toNat <<< 8 ||| b₁.toNat) <<< 8 = b₀.toNat * 2 ^ 16 + b₁.toNat * 2 ^ 8 +
        (0 : UInt8).toNat := by
      rw [shiftLeft_or _ b₁.toNat_lt, Nat.shiftLeft_eq, UInt8.toNat_zero]
      omega
    have hround := b64Round_chars _ pad hv (.inl rfl)
      (.inr ⟨rfl, by rw [hv, UInt8.toNat_zero]; omega⟩)
    simp [b64Encode, b64Stores, hround, eachByte, hchar]
  | case4 b₀ b₁ b₂ bytes ih =>
    have hv : (b₀.toNat <<< 8 ||| b₁.toNat) <<< 8 ||| b₂.toNat = b₀.toNat * 2 ^ 16 +
        b₁.toNat * 2 ^ 8 + b₂.toNat := by
      rw [shiftLeft_or _ b₁.toNat_lt, shiftLeft_or _ b₂.toNat_lt]
      omega
    simp [b64Encode, b64Stores, b64Round_chars _ _ hv (.inl rfl) (.inl rfl), eachByte, hchar, ih]

theorem storeAll_eachByte (bytes : List UInt8) : ∀ front out : List UInt8,
    bytes.length ≤ out.length → storeAll (front ++ out) (eachByte bytes front.length) =
      some (front ++ (bytes ++ out.drop bytes.length)) := by
  induction bytes with
  | nil => exact fun _ _ _ => rfl
  | cons b bytes ih =>
    intro front out hlen
    rw [length_cons] at hlen
    have hrest := ih (front ++ [b]) (out.drop 1) (by rw [length_drop]; omega)
    rw [length_append, length_singleton] at hrest
    rw [eachByte, storeAll, store_eq (by rw [length_append, length_singleton]; omega),
      splice_append, Option.bind_some, length_singleton, ← append_assoc, hrest]
    simp

theorem dropPadding_append {c : WChar} (hc : c ≠ pad) (front rest : List WChar) (ret : UInt64) :
    dropPadding (front ++ c :: rest) ret = dropPadding front ret := by
  induction front generalizing ret with
  | nil => exact if_neg hc
  | cons d front ih => simp only [cons_append, dropPadding, ih]

theorem length_b64Encode (bytes : List UInt8) :
    (b64Encode bytes).length = b64EncodedSize bytes.length := by
  induction bytes using b64Encode.induct with
  | case4 b₀ b₁ b₂ bytes ih =>
    simp only [b64Encode, length_cons, ih, b64EncodedSize]
    split_ifs <;> omega
  | _ => simp [b64Encode, b64EncodedSize]

theorem dropPadding_b64Encode (bytes : List UInt8) (ret : UInt64) :
    dropPadding (b64Encode bytes).reverse ret =
      ret - UInt64.ofNat (b64EncodedSize bytes.length / 4 * 3 - bytes.length) := by
  have hchar := fun v => (b64Inv_b64Char v).2.1
  induction bytes using b64Encode.induct with
  | case1 => simp [b64Encode, dropPadding, b64EncodedSize]
  | case2 b₀ =>
    simp [b64Encode, dropPadding, b64EncodedSize, hchar]
    grind
  | case3 b₀ b₁ => simp [b64Encode, dropPadding, b64EncodedSize, hchar]
  | case4 b₀ b₁ b₂ bytes ih =>
    have hsize : b64EncodedSize (bytes.length + 3) / 4 * 3 - (bytes.length + 3) =
        b64EncodedSize bytes.length / 4 * 3 - bytes.length := by
      simp only [b64EncodedSize]
      split_ifs <;> omega
    simp only [b64Encode, reverse_cons, append_assoc, cons_append, nil_append, length_cons]
    rw [dropPadding_append (hchar _), ih, ← hsize]

/-- `b64_decoded_size` gives the number of the bytes that were encoded. -/
theorem b64DecodedSize_b64Encode {bytes : List UInt8} (h : bytes.length < 2 ^ 63) :
    (b64DecodedSize (b64Encode bytes)).toNat = bytes.length := by
  rw [b64DecodedSize, dropPadding_b64Encode, length_b64Encode]
  have hsize : bytes.length ≤ b64EncodedSize bytes.length / 4 * 3 ∧
      b64EncodedSize bytes.length / 4 * 3 < bytes.length + 3 := by
    simp only [b64EncodedSize]
    split_ifs <;> omega
  rw [UInt64.toNat_sub, UInt64.toNat_ofNat', UInt64.toNat_ofNat']
  omega

theorem all_b64Encode (bytes : List UInt8) : (b64Encode bytes).all b64IsValidChar = true := by
  have hchar := fun v => (b64Inv_b64Char v).2.2
  have hpad : b64IsValidChar pad = true := by decide
  induction bytes using b64Encode.induct with
  | case4 b₀ b₁ b₂ bytes ih => simp [b64Encode, hchar, ih]
  | _ => simp [b64Encode, hchar, hpad]

theorem b64Decode_b64Encode (bytes out : List UInt8) (h : bytes.length < 2 ^ 63)
    (hout : bytes.length ≤ out.length) :
    b64Decode (b64Encode bytes) out = some (true, bytes ++ out.drop bytes.length) := by
  have hfour : (b64Encode bytes).length % 4 = 0 := by
    rw [length_b64Encode, b64EncodedSize]
    omega
  have haccepted : Accepted (b64Encode bytes) out.length :=
    ⟨(b64DecodedSize_b64Encode h).le.trans hout, hfour, all_b64Encode bytes⟩
  rw [b64Decode, if_pos haccepted, b64Stores_b64Encode]
  exact congrArg (Option.map (true, ·)) (storeAll_eachByte bytes [] out hout)

/-- **Round trip** through a buffer of the size that `b64_decoded_size` gives. -/
theorem decoded_encoded {bytes : List UInt8} (h : bytes.length < 2 ^ 63) :
    b64Decode (b64Encode bytes) (replicate (b64DecodedSize (b64Encode bytes)).toNat 0) =
      some (true, bytes) := by
  rw [b64DecodedSize_b64Encode h, b64Decode_b64Encode bytes _ h (length_replicate ..).ge,
    drop_replicate, Nat.sub_self, replicate_zero, append_nil]

theorem decoded_encoded_four : b64Decode (b64Encode [1, 2, 3, 4])
    (replicate (b64DecodedSize (b64Encode [1, 2, 3, 4])).toNat 0) = some (true, [1, 2, 3, 4]) :=
  decoded_encoded (by decide)

/-! ### The buffer -/

theorem b64Inv_of_isValidChar {c : WChar} (h : b64IsValidChar c = true) :
    ∃ v, b64Inv c = some v := by
  have hlen : b64Invs.length = 80 := by decide
  have hpad : pad = 61 := rfl
  have hrange : 43 ≤ c ∧ c - 43 < b64Invs.length := by
    simp only [b64IsValidChar, Bool.or_eq_true, Bool.and_eq_true, decide_eq_true_eq] at h
    grind
  rw [b64Inv, if_pos hrange.1]
  exact ⟨_, getElem?_eq_getElem hrange.2⟩

theorem b64Next_of_isValidChar {c : WChar} (h : b64IsValidChar c = true) (v : UInt32) :
    ∃ v', b64Next c v = some v' := by
  obtain ⟨k, hk⟩ := b64Inv_of_isValidChar h
  rw [b64Next, hk]
  split_ifs <;> exact ⟨_, rfl⟩

/-- How many bytes a round goes over. -/
def roundSize (c₂ c₃ : WChar) : Nat := if c₃ ≠ pad then 3 else if c₂ ≠ pad then 2 else 1

theorem b64Round_spec {c₀ c₁ c₂ c₃ : WChar} (h : [c₀, c₁, c₂, c₃].all b64IsValidChar = true)
    (j : Nat) : ∃ ss, b64Round c₀ c₁ c₂ c₃ j = some ss ∧
      (∀ s ∈ ss, s.1 + s.2.length ≤ j + roundSize c₂ c₃) ∧
      ∃ s ∈ ss, s.1 + s.2.length = j + roundSize c₂ c₃ := by
  simp only [all_cons, all_nil, Bool.and_true, Bool.and_eq_true] at h
  obtain ⟨h₀, h₁, h₂, h₃⟩ := h
  obtain ⟨k₀, hk₀⟩ := b64Inv_of_isValidChar h₀
  obtain ⟨k₁, hk₁⟩ := b64Inv_of_isValidChar h₁
  obtain ⟨w, hw⟩ := b64Next_of_isValidChar h₂ (k₀ <<< 6 ||| k₁)
  obtain ⟨v, hv⟩ := b64Next_of_isValidChar h₃ w
  have hvalue : b64Value c₀ c₁ c₂ c₃ = some v := by simp [b64Value, hk₀, hk₁, hw, hv]
  refine ⟨_, by rw [b64Round, hvalue]; rfl, ?_⟩
  rw [roundSize]
  by_cases hc₂ : c₂ = pad <;> by_cases hc₃ : c₃ = pad <;> simp [hc₂, hc₃]

/-- The last store stands behind all others, and ends where the last round does. -/
theorem b64Stores_concat {front : List WChar} {c₀ c₁ c₂ c₃ : WChar} {j : Nat}
    (hfour : front.length % 4 = 0) (h : (front ++ [c₀, c₁, c₂, c₃]).all b64IsValidChar = true) :
    ∃ ss, b64Stores (front ++ [c₀, c₁, c₂, c₃]) j = some ss ∧
      (∀ s ∈ ss, s.1 + s.2.length ≤ j + front.length / 4 * 3 + roundSize c₂ c₃) ∧
      ∃ s ∈ ss, s.1 + s.2.length = j + front.length / 4 * 3 + roundSize c₂ c₃ := by
  have hround : ∀ d₂ d₃, 1 ≤ roundSize d₂ d₃ ∧ roundSize d₂ d₃ ≤ 3 := by
    intro d₂ d₃
    rw [roundSize]
    split_ifs <;> decide
  have hsize := (hround c₂ c₃).1
  induction front, j using b64Stores.induct with
  | case1 d₀ d₁ d₂ d₃ front j ih =>
    have hvalid : [d₀, d₁, d₂, d₃].all b64IsValidChar = true ∧
        (front ++ [c₀, c₁, c₂, c₃]).all b64IsValidChar = true := by
      simpa [and_assoc] using h
    obtain ⟨ss, hss, hle, -⟩ := b64Round_spec hvalid.1 j
    simp only [length_cons] at hfour
    obtain ⟨rest, hrest, hle', s, hs, heq⟩ := ih (by omega) hvalid.2
    refine ⟨ss ++ rest, by simp [b64Stores, hss, hrest], ?_, s, mem_append_right _ hs, ?_⟩
    · intro s hs
      simp only [length_cons]
      rcases mem_append.mp hs with hs | hs
      · have hfirst := (hle s hs).trans (Nat.add_le_add_left (hround d₂ d₃).2 j)
        omega
      · have hlater := hle' s hs
        omega
    · simp only [length_cons]
      omega
  | case2 front j hshort =>
    have hnil : front = [] := by
      rcases front with _ | ⟨d₀, _ | ⟨d₁, _ | ⟨d₂, _ | ⟨d₃, rest⟩⟩⟩⟩
      · rfl
      · simp at hfour
      · simp at hfour
      · simp at hfour
      · exact absurd rfl (hshort d₀ d₁ d₂ d₃ rest)
    subst hnil
    obtain ⟨ss, hss, hle, s, hs, heq⟩ := b64Round_spec h j
    exact ⟨ss, by simp [b64Stores, hss], hle, s, hs, heq⟩

/-- **Exactly the texts that end in `===`** are decoded over the end of a buffer that is large
enough for `b64_decoded_size`. -/
theorem b64Decode_eq_none_iff {text : List WChar} {out : List UInt8} (hlen : text.length < 2 ^ 64) :
    b64Decode text out = none ↔ Accepted text out.length ∧ [pad, pad, pad] <:+ text ∧
      out.length + 2 < text.length / 4 * 3 := by
  by_cases haccepted : Accepted text out.length
  · rw [and_iff_right haccepted, b64Decode, if_pos haccepted, Option.map_eq_none_iff]
    obtain ⟨hsize, hfour, hvalid⟩ := haccepted
    by_cases hnil : text = []
    · subst hnil
      simp [b64Stores, storeAll]
    have hpos := length_pos_of_ne_nil hnil
    obtain ⟨front, c₀, c₁, c₂, c₃, hfront, rfl⟩ : ∃ front c₀ c₁ c₂ c₃,
        front.length % 4 = 0 ∧ text = front ++ [c₀, c₁, c₂, c₃] := by
      obtain ⟨c₀, c₁, c₂, c₃, hlast⟩ := length_eq_four.mp
        (show (text.drop (text.length - 4)).length = 4 by rw [length_drop]; omega)
      refine ⟨text.take (text.length - 4), c₀, c₁, c₂, c₃, ?_, ?_⟩
      · rw [length_take]
        omega
      · rw [← hlast, take_append_drop]
    obtain ⟨ss, hss, hle, s, hs, heq⟩ := b64Stores_concat (j := 0) hfront hvalid
    have hnone : storeAll out ss = none ↔
        out.length < front.length / 4 * 3 + roundSize c₂ c₃ := by
      simp only [Nat.zero_add] at hle heq
      rw [← Option.not_isSome_iff_eq_none, storeAll_isSome_iff, ← not_le]
      exact not_congr ⟨fun hall => heq ▸ hall s hs, fun hin s' hs' => (hle s' hs').trans hin⟩
    have hsuffix : [pad, pad, pad] <:+ front ++ [c₀, c₁, c₂, c₃] ↔
        c₃ = pad ∧ c₂ = pad ∧ c₁ = pad := by
      rw [← reverse_prefix]
      simp [eq_comm]
    rw [hss, Option.bind_some, hnone, hsuffix]
    simp only [b64DecodedSize, reverse_append, reverse_cons, reverse_nil, nil_append, cons_append,
      length_append, length_cons, length_nil, dropPadding] at hsize hlen ⊢
    have hlast : (front.length + (0 + 1 + 1 + 1 + 1)) / 4 * 3 = front.length / 4 * 3 + 3 := by
      omega
    rw [hlast] at hsize ⊢
    have hzero : (UInt64.ofNat (front.length / 4 * 3 + 3)).toNat = front.length / 4 * 3 + 3 := by
      rw [UInt64.toNat_ofNat']
      omega
    generalize UInt64.ofNat (front.length / 4 * 3 + 3) = ret at hsize hzero
    have hless : ∀ x : UInt64, 0 < x.toNat → (x - 1).toNat = x.toNat - 1 :=
      fun x hx => UInt64.toNat_sub_of_le x 1 (UInt64.le_iff_toNat_le.mpr hx)
    have hone := hless ret (by omega)
    have htwo := hless (ret - 1) (by omega)
    rw [roundSize]
    by_cases hc₃ : c₃ = pad
    · by_cases hc₂ : c₂ = pad
      · by_cases hc₁ : c₁ = pad
        · simp [hc₁, hc₂, hc₃]
        · rw [if_pos hc₃, if_pos hc₂, if_neg hc₁, htwo] at hsize
          exact iff_of_false (by simp [hc₂, hc₃]; omega) fun h => hc₁ h.1.2.2
      · rw [if_pos hc₃, if_neg hc₂] at hsize
        exact iff_of_false (by simp [hc₂, hc₃]; omega) fun h => hc₂ h.1.2.1
    · rw [if_neg hc₃] at hsize
      exact iff_of_false (by simp [hc₃]; omega) fun h => hc₃ h.1.1
  · rw [b64Decode, if_neg haccepted]
    exact iff_of_false (by simp) fun h => haccepted h.1

/-- `A===` into the empty buffer that it is given. -/
theorem b64Decode_outside : b64Decode [65, pad, pad, pad] [] = none :=
  (b64Decode_eq_none_iff (by decide)).mpr ⟨by decide, by decide, by decide⟩

end Sandboxie.Base64
