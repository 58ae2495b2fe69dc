import Sandboxie.Common.IniLoad

/-!
# Reading a stream of characters

`Stream_Read_BOM` and `Stream_Read_Wchar` of `common/stream.c` over the reads of a file, each of
which gives some of its bytes, until there are no more.

The characters are read byte by byte, over the end of what a read gave.  The mark at the beginning
is looked for in the first read only.
-/

namespace Sandboxie

open IniLoad List

abbrev Stream.Chunk := { chunk : List UInt8 // chunk ≠ [] }

/-- `STREAM`, without the handle: the `data_len` bytes at `data_ptr`, and the reads to come. -/
structure Stream where
  data : List UInt8
  encoding : Nat
  reads : List Stream.Chunk

namespace Stream

inductive Status
  | success
  | endOfFile
  | invalidParameter
  | accessViolation
deriving DecidableEq

/-- `Stream_Open` -/
def opened (reads : List Chunk) : Stream := ⟨[], 0, reads⟩

/-- `Stream_Read_More` -/
def readMore (s : Stream) : Status × Stream :=
  match s.reads with
  | [] => (.endOfFile, { s with data := [] })
  | chunk :: reads => (.success, { s with data := chunk.val, reads := reads })

/-- `STREAM_GET_BYTE`, which returns at the end of the file. -/
def getByte (s : Stream) : Option (UInt8 × Stream) :=
  match s.data with
  | b :: data => some (b, { s with data := data })
  | [] =>
    match s.readMore with
    | (.success, s) =>
      match s.data with
      | b :: data => some (b, { s with data := data })
      | [] => none
    | _ => none

/-- `Stream_Read_BOM` -/
def readBOM (s : Stream) : Status × Stream :=
  match if s.data = [] then s.readMore else (.success, s) with
  | (.success, s) =>
    match IniLoad.readBOM s.data s.data.length with
    | some (encoding, mark) =>
      (.success, { s with data := s.data.drop mark, encoding := encoding })
    | none => (.accessViolation, s)
  | (status, s) => (status, s)

def setLow (v : WChar) (b : UInt8) : WChar := v / 256 * 256 + b.toNat

def setHigh (v : WChar) (b : UInt8) : WChar := b.toNat * 256 + v % 256

/-- The character with a number, unless it is a half of a pair; then `v` is left. -/
def ofUnicode (v unicode : WChar) : WChar :=
  if unicode ≤ 0xD7FF ∨ (0xE000 ≤ unicode ∧ unicode ≤ 0xFFFF) then unicode else v

/-- The next bytes, for each of which the function may return. -/
def getBytes (s : Stream) : Nat → Option (List Nat × Stream)
  | 0 => some ([], s)
  | n + 1 =>
    match s.getByte with
    | none => none
    | some (b, s) => (getBytes s n).map fun r => (b.toNat :: r.1, r.2)

/-- The part of `Stream_Read_Wchar` for UTF-8.  Each turn takes a byte, so that there are at most
as many turns as bytes. -/
def readNext : Nat → WChar → Stream → Status × WChar × Stream
  | 0, v, s => (.endOfFile, v, s)
  | n + 1, v, s =>
    match s.getByte with
    | none => (.endOfFile, v, s)
    | some (b, s) =>
      let cur := b.toNat
      if cur < 0x80 then (.success, cur, s)
      else if cur < 0xC0 then readNext n v s
      else if cur < 0xE0 then
        match s.getBytes 1 with
        | some ([cur2], s) =>
          (.success, ofUnicode v (((cur &&& 0x1F) <<< 6) ||| (cur2 &&& 0x3F)), s)
        | _ => (.endOfFile, v, s)
      else if cur < 0xF0 then
        match s.getBytes 2 with
        | some ([cur2, cur3], s) =>
          (.success, ofUnicode v (((cur &&& 0xF) <<< 12) ||| (((cur2 &&& 0x3C) >>> 2) <<< 8) |||
            ((cur2 &&& 0x3) <<< 6) ||| (((cur3 &&& 0x30) >>> 4) <<< 4) ||| (cur3 &&& 0xF)), s)
        | _ => (.endOfFile, v, s)
      else if cur < 0xF8 then
        -- the number of the character is computed and not used
        match s.getBytes 3 with
        | some (_, s) => (.success, '_'.toNat, s)
        | none => (.endOfFile, v, s)
      else readNext n v s

def bytes (s : Stream) : List UInt8 := s.data ++ s.reads.flatMap Subtype.val

/-- `Stream_Read_Wchar`, with what `v` points to before it. -/
def readWchar (v : WChar) (s : Stream) : Status × WChar × Stream :=
  if s.encoding = 0 then
    match s.getByte with
    | none => (.endOfFile, v, s)
    | some (b, s) =>
      match s.getByte with
      | none => (.endOfFile, setLow v b, s)
      | some (b', s) => (.success, setHigh (setLow v b) b', s)
  else if s.encoding = 2 then
    match s.getByte with
    | none => (.endOfFile, v, s)
    | some (b, s) =>
      match s.getByte with
      | none => (.endOfFile, setHigh v b, s)
      | some (b', s) => (.success, setLow (setHigh v b) b', s)
  else if s.encoding = 1 then readNext s.bytes.length v s
  else (.invalidParameter, v, s)

/-! ### What is read -/

/-- The calls of `Stream_Read_Wchar` give a text and then the end of the file. -/
def Yields : Stream → List WChar → Prop
  | s, [] => ∀ v, (readWchar v s).1 = .endOfFile
  | s, c :: text => ∃ s', (∀ v, readWchar v s = (.success, c, s')) ∧ Yields s' text

theorem Yields.unique {text text' : List WChar} {s : Stream} (h : Yields s text)
    (h' : Yields s text') : text = text' := by
  induction text generalizing s text' with
  | nil =>
    cases text' with
    | nil => rfl
    | cons c' text' =>
      obtain ⟨s', hread, -⟩ := h'
      have hend := h 0
      rw [hread] at hend
      cases hend
  | cons c text ih =>
    obtain ⟨s', hread, hmore⟩ := h
    cases text' with
    | nil =>
      have hend := h' 0
      rw [hread] at hend
      cases hend
    | cons c' text' =>
      obtain ⟨s'', hread', hmore'⟩ := h'
      have heq := (hread 0).symm.trans (hread' 0)
      obtain ⟨rfl, rfl⟩ := heq
      rw [ih hmore hmore']

/-! ### The bytes, over the ends of the reads -/

theorem getByte_nil {s : Stream} (h : s.bytes = []) : s.getByte = none := by
  obtain ⟨data, encoding, reads⟩ := s
  obtain ⟨rfl, hreads⟩ := append_eq_nil_iff.mp h
  cases reads with
  | nil => rfl
  | cons chunk reads =>
    exact absurd (append_eq_nil_iff.mp hreads).1 chunk.property

theorem getByte_cons {s : Stream} {b : UInt8} {rest : List UInt8} (h : s.bytes = b :: rest) :
    ∃ s', s.getByte = some (b, s') ∧ s'.bytes = rest ∧ s'.encoding = s.encoding := by
  obtain ⟨data, encoding, reads⟩ := s
  cases data with
  | cons b' data =>
    rw [bytes, cons_append, List.cons.injEq] at h
    obtain ⟨rfl, hrest⟩ := h
    exact ⟨_, rfl, hrest, rfl⟩
  | nil =>
    cases reads with
    | nil => cases h
    | cons chunk reads =>
      obtain ⟨chunk, hne⟩ := chunk
      cases chunk with
      | nil => exact absurd rfl hne
      | cons b' data =>
        rw [bytes, nil_append, flatMap_cons, cons_append, List.cons.injEq] at h
        obtain ⟨rfl, hrest⟩ := h
        exact ⟨_, rfl, hrest, rfl⟩

theorem getBytes_append {bs rest : List UInt8} : ∀ {s : Stream}, s.bytes = bs ++ rest →
    ∃ s', s.getBytes bs.length = some (bs.map UInt8.toNat, s') ∧ s'.bytes = rest ∧
      s'.encoding = s.encoding := by
  induction bs with
  | nil => exact fun {s} h => ⟨s, rfl, h, rfl⟩
  | cons b bs ih =>
    intro s h
    obtain ⟨s₁, hbyte, hbytes₁, henc₁⟩ := getByte_cons h
    obtain ⟨s₂, hget, hbytes₂, henc₂⟩ := ih hbytes₁
    refine ⟨s₂, ?_, hbytes₂, henc₂.trans henc₁⟩
    rw [length_cons, getBytes, hbyte]
    dsimp only
    rw [hget]
    rfl

/-! ### UTF-16 -/

theorem setHigh_setLow (v : WChar) (a b : UInt8) :
    setHigh (setLow v a) b = a.toNat + 2 ^ 8 * b.toNat := by
  have ha := a.toNat_lt
  show b.toNat * 256 + (v / 256 * 256 + a.toNat) % 256 = (_ : Nat)
  omega

theorem setLow_setHigh (v : WChar) (a b : UInt8) :
    setLow (setHigh v a) b = b.toNat + 2 ^ 8 * a.toNat := by
  have ha := a.toNat_lt
  have hb := b.toNat_lt
  show (a.toNat * 256 + v % 256) / 256 * 256 + b.toNat = (_ : Nat)
  omega

theorem yields_toWide {s : Stream} (henc : s.encoding = 0) : Yields s (toWide s.bytes) := by
  match hbytes : s.bytes with
  | [] =>
    intro v
    rw [readWchar, if_pos henc, getByte_nil hbytes]
  | [b] =>
    intro v
    obtain ⟨s', hbyte, hbytes', -⟩ := getByte_cons hbytes
    rw [readWchar, if_pos henc, hbyte]
    dsimp only
    rw [getByte_nil hbytes']
  | a :: b :: rest =>
    obtain ⟨s₁, hbyte₁, hbytes₁, henc₁⟩ := getByte_cons hbytes
    obtain ⟨s₂, hbyte₂, hbytes₂, henc₂⟩ := getByte_cons hbytes₁
    refine ⟨s₂, fun v => ?_, ?_⟩
    · rw [readWchar, if_pos henc, hbyte₁]
      dsimp only
      rw [hbyte₂]
      dsimp only
      rw [setHigh_setLow]
    · rw [← hbytes₂]
      exact yields_toWide (henc₂.trans (henc₁.trans henc))
termination_by s.bytes.length
decreasing_by rw [hbytes, hbytes₂, length_cons, length_cons]; omega

theorem yields_swapPairs {s : Stream} (henc : s.encoding = 2) :
    Yields s (toWide (swapPairs s.bytes)) := by
  have hne : ¬s.encoding = 0 := by omega
  match hbytes : s.bytes with
  | [] =>
    intro v
    rw [readWchar, if_neg hne, if_pos henc, getByte_nil hbytes]
  | [b] =>
    intro v
    obtain ⟨s', hbyte, hbytes', -⟩ := getByte_cons hbytes
    rw [readWchar, if_neg hne, if_pos henc, hbyte]
    dsimp only
    rw [getByte_nil hbytes']
  | a :: b :: rest =>
    obtain ⟨s₁, hbyte₁, hbytes₁, henc₁⟩ := getByte_cons hbytes
    obtain ⟨s₂, hbyte₂, hbytes₂, henc₂⟩ := getByte_cons hbytes₁
    refine ⟨s₂, fun v => ?_, ?_⟩
    · rw [readWchar, if_neg hne, if_pos henc, hbyte₁]
      dsimp only
      rw [hbyte₂]
      dsimp only
      rw [setLow_setHigh]
    · rw [← hbytes₂]
      exact yields_swapPairs (henc₂.trans (henc₁.trans henc))
termination_by s.bytes.length
decreasing_by rw [hbytes, hbytes₂, length_cons, length_cons]; omega

/-! ### UTF-8 -/

theorem shiftLeft_or {a b i : Nat} (h : b < 2 ^ i) : a <<< i ||| b = a * 2 ^ i + b := by
  rw [← Nat.shiftLeft_add_eq_or_of_lt h, Nat.shiftLeft_eq]

theorem join_two {n : Nat} (h : n ≤ 0x7FF) :
    (((n / 64 % 0x20 + 0xC0) &&& 0x1F) <<< 6) ||| ((n % 0x40 + 0x80) &&& 0x3F) = n := by
  have hhigh : (n / 64 % 0x20 + 0xC0) &&& 0x1F = (n / 64 % 0x20 + 0xC0) % 32 :=
    Nat.and_two_pow_sub_one_eq_mod _ 5
  have hlow : (n % 0x40 + 0x80) &&& 0x3F = (n % 0x40 + 0x80) % 64 :=
    Nat.and_two_pow_sub_one_eq_mod _ 6
  rw [hhigh, hlow, shiftLeft_or (by omega)]
  omega

theorem join_three {n a b c : Nat} (h : n ≤ 0xFFFF) (ha : a = n / 4096 % 0x10 + 0xE0)
    (hb : b = n / 64 % 0x40 + 0x80) (hc : c = n % 0x40 + 0x80) :
    ((a &&& 0xF) <<< 12) ||| (((b &&& 0x3C) >>> 2) <<< 8) ||| ((b &&& 0x3) <<< 6) |||
      (((c &&& 0x30) >>> 4) <<< 4) ||| (c &&& 0xF) = n := by
  have h₁ : a &&& 0xF = a % 16 := Nat.and_two_pow_sub_one_eq_mod a 4
  have h₂ : (b &&& 0x3C) >>> 2 = b / 4 % 16 := by
    rw [Nat.shiftRight_and_distrib, Nat.shiftRight_eq_div_pow]
    exact Nat.and_two_pow_sub_one_eq_mod _ 4
  have h₃ : b &&& 0x3 = b % 4 := Nat.and_two_pow_sub_one_eq_mod b 2
  have h₄ : (c &&& 0x30) >>> 4 = c / 16 % 4 := by
    rw [Nat.shiftRight_and_distrib, Nat.shiftRight_eq_div_pow]
    exact Nat.and_two_pow_sub_one_eq_mod _ 2
  have h₅ : c &&& 0xF = c % 16 := Nat.and_two_pow_sub_one_eq_mod c 4
  -- the bits of each part are below those of the part in front of it
  rw [h₁, h₂, h₃, h₄, h₅, Nat.or_assoc, Nat.or_assoc, Nat.or_assoc,
    @shiftLeft_or (c / 16 % 4) (c % 16) 4 (by omega), @shiftLeft_or (b % 4) _ 6 (by omega),
    @shiftLeft_or (b / 4 % 16) _ 8 (by omega), @shiftLeft_or (a % 16) _ 12 (by omega)]
  omega

abbrev Bmp := { c : Char // c.toNat ≤ 0xFFFF }

theorem ofUnicode_bmp (v : WChar) (c : Bmp) : ofUnicode v c.val.toNat = c.val.toNat := by
  have hvalid : c.val.toNat < 0xD800 ∨ (0xDFFF < c.val.toNat ∧ c.val.toNat < 0x110000) :=
    c.val.valid
  have hbmp := c.property
  have hwhole : c.val.toNat ≤ 0xD7FF ∨ (0xE000 ≤ c.val.toNat ∧ c.val.toNat ≤ 0xFFFF) := by omega
  exact if_pos hwhole

theorem toNat_ofNat {n : Nat} (h : n < 256) : (UInt8.ofNat n).toNat = n := by
  rw [UInt8.toNat_ofNat', Nat.mod_eq_of_lt h]

theorem readNext_char (c : Bmp) {rest : List UInt8} {s : Stream} (n : Nat)
    (h : s.bytes = String.utf8EncodeChar c.val ++ rest) :
    ∃ s', (∀ v, readNext (n + 1) v s = (.success, c.val.toNat, s')) ∧ s'.bytes = rest ∧
      s'.encoding = s.encoding := by
  have hbmp := c.property
  have hval : c.val.val.toNat = c.val.toNat := rfl
  unfold String.utf8EncodeChar at h
  simp only [hval] at h
  by_cases h₁ : c.val.toNat ≤ 0x7F
  · rw [if_pos h₁] at h
    obtain ⟨s', hbyte, hbytes, henc⟩ := getByte_cons h
    refine ⟨s', fun v => ?_, hbytes, henc⟩
    rw [readNext, hbyte]
    dsimp only
    rw [toNat_ofNat (by omega), if_pos (by omega)]
  · rw [if_neg h₁] at h
    by_cases h₂ : c.val.toNat ≤ 0x7FF
    · rw [if_pos h₂] at h
      obtain ⟨s₁, hbyte, hbytes₁, henc₁⟩ := getByte_cons h
      obtain ⟨s₂, hmore, hbytes₂, henc₂⟩ := @getBytes_append [_] _ _ hbytes₁
      refine ⟨s₂, fun v => ?_, hbytes₂, henc₂.trans henc₁⟩
      rw [readNext, hbyte]
      dsimp only
      rw [toNat_ofNat (by omega), if_neg (by omega), if_neg (by omega), if_pos (by omega)]
      rw [length_singleton] at hmore
      rw [hmore, map_singleton]
      dsimp only
      rw [toNat_ofNat (by omega), join_two h₂, ofUnicode_bmp]
    · rw [if_neg h₂, if_pos hbmp] at h
      obtain ⟨s₁, hbyte, hbytes₁, henc₁⟩ := getByte_cons h
      obtain ⟨s₂, hmore, hbytes₂, henc₂⟩ := @getBytes_append [_, _] _ _ hbytes₁
      refine ⟨s₂, fun v => ?_, hbytes₂, henc₂.trans henc₁⟩
      rw [readNext, hbyte]
      dsimp only
      rw [toNat_ofNat (by omega), if_neg (by omega), if_neg (by omega), if_neg (by omega),
        if_pos (by omega)]
      rw [length_cons, length_singleton] at hmore
      rw [hmore, map_cons, map_singleton]
      dsimp only
      rw [join_three hbmp rfl (toNat_ofNat (by omega)) (toNat_ofNat (by omega)), ofUnicode_bmp]

def units (text : List Bmp) : List WChar := text.map fun c => c.val.toNat

variable {text : List Bmp}

theorem yields_utf8 : ∀ {s : Stream}, s.encoding = 1 →
    s.bytes = text.flatMap (fun c => String.utf8EncodeChar c.val) → Yields s (units text) := by
  induction text with
  | nil =>
    intro s henc hbytes v
    rw [readWchar, henc, if_neg (by decide), if_neg (by decide), if_pos rfl, hbytes]
    rfl
  | cons c text ih =>
    intro s henc hbytes
    rw [flatMap_cons] at hbytes
    have hlen : ∃ n, s.bytes.length = n + 1 := by
      refine Nat.exists_eq_add_one.mpr ?_
      rw [hbytes, length_append, String.length_utf8EncodeChar]
      have hpos := c.val.utf8Size_pos
      omega
    obtain ⟨n, hn⟩ := hlen
    obtain ⟨s', hread, hbytes', henc'⟩ := readNext_char c n hbytes
    refine ⟨s', fun v => ?_, ih (henc'.trans henc) hbytes'⟩
    rw [readWchar, henc, if_neg (by decide), if_neg (by decide), if_pos rfl, hn]
    exact hread v

/-! ### Files with a mark -/

inductive Encoding
  | utf16LE
  | utf8
  | utf16BE

namespace Encoding

/-- The number in `encoding`. -/
def number : Encoding → Nat
  | utf16LE => 0
  | utf8 => 1
  | utf16BE => 2

/-- The mark in front of a text. -/
def bom : Encoding → List UInt8
  | utf16LE => [0xFF, 0xFE]
  | utf8 => [0xEF, 0xBB, 0xBF]
  | utf16BE => [0xFE, 0xFF]

def encodeChar : Encoding → Bmp → List UInt8
  | utf16LE, c => [UInt8.ofNat (c.val.toNat % 256), UInt8.ofNat (c.val.toNat / 256)]
  | utf8, c => String.utf8EncodeChar c.val
  | utf16BE, c => [UInt8.ofNat (c.val.toNat / 256), UInt8.ofNat (c.val.toNat % 256)]

def encode (e : Encoding) (text : List Bmp) : List UInt8 := text.flatMap e.encodeChar

end Encoding

theorem toWide_encode (text : List Bmp) : toWide (Encoding.utf16LE.encode text) = units text := by
  induction text with
  | nil => rfl
  | cons c text ih =>
    have hbmp := c.property
    have hchar : c.val.toNat % 256 + 2 ^ 8 * (c.val.toNat / 256) = c.val.toNat := by omega
    show ((UInt8.ofNat (c.val.toNat % 256)).toNat + 2 ^ 8 * (UInt8.ofNat (c.val.toNat / 256)).toNat)
      :: toWide (Encoding.utf16LE.encode text) = c.val.toNat :: units text
    rw [ih, toNat_ofNat (by omega), toNat_ofNat (by omega), hchar]

theorem swapPairs_encode (text : List Bmp) :
    swapPairs (Encoding.utf16BE.encode text) = Encoding.utf16LE.encode text := by
  induction text with
  | nil => rfl
  | cons c text ih => exact congrArg (_ :: _ :: ·) ih

theorem yields_encode {e : Encoding} {s : Stream} (henc : s.encoding = e.number)
    (hbytes : s.bytes = e.encode text) : Yields s (units text) := by
  cases e with
  | utf16LE =>
    have hyields := yields_toWide henc
    rwa [hbytes, toWide_encode] at hyields
  | utf8 => exact yields_utf8 henc hbytes
  | utf16BE =>
    have hyields := yields_swapPairs henc
    rwa [hbytes, swapPairs_encode, toWide_encode] at hyields

theorem readBOM_bom (e : Encoding) (data : List UInt8) :
    IniLoad.readBOM (e.bom ++ data) (e.bom ++ data).length = some (e.number, e.bom.length) := by
  cases e <;> simp [IniLoad.readBOM, hasMark, startsWith, Encoding.bom, Encoding.number]

/-! ### UTF-8 taken for UTF-16 -/

theorem toWide_high {rest : List UInt8} :
    ∀ {front : List UInt8} (k : Nat), (∀ b ∈ front, 0x80 ≤ b.toNat) → 2 * k + 1 < front.length →
      ∃ w, (toWide (front ++ rest))[k]? = some w ∧ 0x8000 ≤ w
  | [], k, _, hlen => by cases hlen
  | [_], k, _, hlen => by
    rw [length_singleton] at hlen
    omega
  | a :: b :: front, k, hhigh, hlen => by
    rw [cons_append, cons_append, toWide]
    cases k with
    | zero =>
      have hb := hhigh b (mem_cons_of_mem _ mem_cons_self)
      exact ⟨_, rfl, show 0x8000 ≤ (_ : Nat) by omega⟩
    | succ k =>
      rw [length_cons, length_cons] at hlen
      exact toWide_high k
        (fun b hb => hhigh b (mem_cons_of_mem _ (mem_cons_of_mem _ hb))) (by omega)

def isWide (c : Bmp) : Bool := decide (0x800 ≤ c.val.toNat)

theorem utf8EncodeChar_wide {c : Bmp} (h : 0x800 ≤ c.val.toNat) :
    (String.utf8EncodeChar c.val).length = 3 ∧
      ∀ b ∈ String.utf8EncodeChar c.val, 0x80 ≤ b.toNat := by
  have hbmp := c.property
  have hval : c.val.val.toNat = c.val.toNat := rfl
  unfold String.utf8EncodeChar
  simp only [hval]
  rw [if_neg (by omega), if_neg (by omega), if_pos hbmp]
  refine ⟨rfl, ?_⟩
  simp only [forall_mem_cons]
  refine ⟨?_, ?_, ?_, by simp⟩ <;> rw [toNat_ofNat (by omega)] <;> omega

theorem utf8_wide (h : ∀ c ∈ text, 0x800 ≤ c.val.toNat) :
    (Encoding.utf8.encode text).length = 3 * text.length ∧
      ∀ b ∈ Encoding.utf8.encode text, 0x80 ≤ b.toNat := by
  induction text with
  | nil => exact ⟨rfl, fun b hb => nomatch hb⟩
  | cons c text ih =>
    obtain ⟨hlen, hhigh⟩ := utf8EncodeChar_wide (h c mem_cons_self)
    obtain ⟨ihlen, ihhigh⟩ := ih fun c hc => h c (mem_cons_of_mem _ hc)
    rw [Encoding.encode] at ihlen ihhigh ⊢
    rw [flatMap_cons]
    refine ⟨?_, fun b hb => ?_⟩
    · rw [length_append, ihlen, length_cons]
      show (String.utf8EncodeChar c.val).length + _ = _
      omega
    · rcases mem_append.mp hb with hb | hb
      · exact hhigh b hb
      · exact ihhigh b hb

/-- **Behind its mark UTF-8 is never what it is as UTF-16.** -/
theorem toWide_utf8_ne (text : List Bmp) :
    toWide (Encoding.utf8.bom ++ Encoding.utf8.encode text) ≠ units text := by
  intro heq
  -- the text is split in front of the first character that has less than three bytes
  have hfront : ∀ c ∈ text.takeWhile isWide, 0x800 ≤ c.val.toNat := by
    intro c hc
    have hwide : isWide c = true := mem_takeWhile_imp hc
    exact of_decide_eq_true hwide
  obtain ⟨hlen, hhigh⟩ := utf8_wide hfront
  have hsplit : text = text.takeWhile isWide ++ text.dropWhile isWide :=
    takeWhile_append_dropWhile.symm
  cases hrest : text.dropWhile isWide with
  | nil =>
    rw [hrest, append_nil] at hsplit
    rw [← hsplit] at hlen
    have hlength := congrArg List.length heq
    rw [length_toWide, length_append, hlen, units, length_map] at hlength
    have hbom : Encoding.utf8.bom.length = 3 := rfl
    omega
  | cons c rest =>
    rw [hrest] at hsplit
    have hnarrow : ¬0x800 ≤ c.val.toNat := by
      have hnot := head?_dropWhile_not isWide text
      rw [hrest] at hnot
      exact fun h => by simp [isWide, h] at hnot
    have hbytes : Encoding.utf8.bom ++ Encoding.utf8.encode text =
        (Encoding.utf8.bom ++ Encoding.utf8.encode (text.takeWhile isWide)) ++
          Encoding.utf8.encode (c :: rest) := by
      rw [append_assoc, Encoding.encode, Encoding.encode, Encoding.encode,
        ← flatMap_append, ← hsplit]
    have hbytesHigh : ∀ b ∈ Encoding.utf8.bom ++ Encoding.utf8.encode (text.takeWhile isWide),
        0x80 ≤ b.toNat := by
      intro b hb
      have hbom : (Encoding.utf8.bom.all fun b => decide (0x80 ≤ b.toNat)) = true := rfl
      refine (mem_append.mp hb).elim (fun hin => ?_) (hhigh b)
      exact of_decide_eq_true (all_eq_true.mp hbom b hin)
    have hroom : 2 * (text.takeWhile isWide).length + 1 <
        (Encoding.utf8.bom ++ Encoding.utf8.encode (text.takeWhile isWide)).length := by
      have hbom : Encoding.utf8.bom.length = 3 := rfl
      rw [length_append, hlen]
      omega
    obtain ⟨w, hw, hlarge⟩ :=
      @toWide_high (Encoding.utf8.encode (c :: rest)) _ _ hbytesHigh hroom
    rw [← hbytes, heq, units, hsplit, map_append, map_cons, ← hsplit,
      getElem?_append_right (by rw [length_map]), length_map, Nat.sub_self,
      getElem?_cons_zero, Option.some.injEq] at hw
    rw [← hw] at hlarge
    exact hnarrow (Nat.le_trans (by decide) hlarge)

/-! ### The whole file -/

structure Reads (file : List UInt8) where
  chunks : List Chunk
  joined : chunks.flatMap Subtype.val = file

def Decodes (chunks : List Chunk) (text : List WChar) : Prop :=
  ∃ s, (opened chunks).readBOM = (.success, s) ∧ Yields s text

theorem readBOM_opened {first : Chunk} {rest : List Chunk} {encoding mark : Nat}
    (h : IniLoad.readBOM first.val first.val.length = some (encoding, mark)) :
    (opened (first :: rest)).readBOM = (.success, ⟨first.val.drop mark, encoding, rest⟩) := by
  show (match IniLoad.readBOM first.val first.val.length with
    | some (encoding, mark) => (Status.success, (⟨first.val.drop mark, encoding, rest⟩ : Stream))
    | none => (.accessViolation, ⟨first.val, 0, rest⟩)) = _
  rw [h]

theorem not_decodes {chunks : List Chunk} {text text' : List WChar} {s : Stream}
    (hbom : (opened chunks).readBOM = (.success, s)) (hyields : Yields s text') (h : text' ≠ text) :
    ¬Decodes chunks text := by
  rintro ⟨s', hbom', hyields'⟩
  rw [hbom] at hbom'
  cases hbom'
  exact h (hyields.unique hyields')

theorem not_decodes_unmarked {first : Chunk} {rest : List Chunk} {e : Encoding} {encoding : Nat}
    (hjoined : first.val ++ rest.flatMap Subtype.val = e.bom ++ e.encode text)
    (hbom : IniLoad.readBOM first.val first.val.length = some (encoding, 0))
    (h : ∀ s : Stream, s.encoding = encoding → s.bytes = e.bom ++ e.encode text →
      ∃ text', Yields s text' ∧ text' ≠ units text) :
    ¬Decodes (first :: rest) (units text) := by
  obtain ⟨text', hyields, hne⟩ := h ⟨first.val.drop 0, encoding, rest⟩ rfl hjoined
  exact not_decodes (readBOM_opened hbom) hyields hne

/-- **With a part of the mark only, the text is another one**: the mark is a character of it, or
UTF-8 is taken for UTF-16. -/
theorem not_decodes_short {first : Chunk} {rest : List Chunk} {e : Encoding}
    (hjoined : first.val ++ rest.flatMap Subtype.val = e.bom ++ e.encode text)
    (hshort : first.val.length < e.bom.length) : ¬Decodes (first :: rest) (units text) := by
  have hlonger : ∀ {text' : List WChar}, text'.length = (units text).length + 1 →
      text' ≠ units text := by
    intro text' hlen heq
    rw [heq] at hlen
    omega
  have hpos : 0 < first.val.length := length_pos_iff.mpr first.property
  have htake : first.val = e.bom.take first.val.length :=
    prefix_iff_eq_take.mp
      (prefix_of_prefix_length_le ⟨_, hjoined⟩ ⟨_, rfl⟩ (Nat.le_of_lt hshort))
  cases e with
  | utf16LE =>
    have hone : first.val.length = 1 := by
      have hbom : Encoding.utf16LE.bom.length = 2 := rfl
      omega
    rw [hone] at htake
    refine not_decodes_unmarked hjoined (by rw [htake]; rfl) fun s henc hbytes => ?_
    refine ⟨_, yields_toWide henc, hlonger ?_⟩
    rw [hbytes]
    show (_ :: toWide (Encoding.utf16LE.encode text)).length = _
    rw [toWide_encode, length_cons]
  | utf16BE =>
    have hone : first.val.length = 1 := by
      have hbom : Encoding.utf16BE.bom.length = 2 := rfl
      omega
    rw [hone] at htake
    refine not_decodes_unmarked hjoined (by rw [htake]; rfl) fun s henc hbytes => ?_
    refine ⟨_, yields_toWide henc, hlonger ?_⟩
    rw [hbytes]
    show (_ :: toWide (Encoding.utf16BE.encode text)).length = _
    rw [length_cons, length_toWide, ← toWide_encode, length_toWide, ← swapPairs_encode,
      length_swapPairs]
  | utf8 =>
    have hbom : Encoding.utf8.bom.length = 3 := rfl
    obtain hone | htwo : first.val.length = 1 ∨ first.val.length = 2 := by omega
    · rw [hone] at htake
      refine not_decodes_unmarked hjoined (by rw [htake]; rfl) fun s henc hbytes => ?_
      refine ⟨_, yields_toWide henc, ?_⟩
      rw [hbytes]
      exact toWide_utf8_ne text
    · rw [htwo] at htake
      refine not_decodes_unmarked hjoined (by rw [htake]; rfl) fun s henc hbytes => ?_
      -- the mark is a character
      have hmark : String.utf8EncodeChar (Char.ofNat 0xFEFF) = Encoding.utf8.bom := by decide
      refine ⟨units (⟨Char.ofNat 0xFEFF, by decide⟩ :: text), yields_utf8 henc ?_, hlonger rfl⟩
      rw [hbytes, flatMap_cons, hmark]
      rfl

def FirstWhole (e : Encoding) (chunks : List Chunk) : Prop :=
  ∃ first rest, chunks = first :: rest ∧ e.bom.length ≤ first.val.length

/-- **When a file is read as its text**: when the first read gives the whole mark. -/
theorem decodes_iff (e : Encoding) (text : List Bmp) (file : Reads (e.bom ++ e.encode text)) :
    Decodes file.chunks (units text) ↔ FirstWhole e file.chunks := by
  obtain ⟨chunks, hjoined⟩ := file
  cases chunks with
  | nil => cases e <;> cases hjoined
  | cons first rest =>
    rw [flatMap_cons] at hjoined
    show Decodes (first :: rest) (units text) ↔ FirstWhole e (first :: rest)
    by_cases hlong : e.bom.length ≤ first.val.length
    · refine iff_of_true ?_ ⟨first, rest, rfl, hlong⟩
      obtain ⟨data, hdata⟩ := prefix_of_prefix_length_le
        ⟨_, rfl⟩ ⟨_, hjoined⟩ hlong
      have hmark : IniLoad.readBOM first.val first.val.length = some (e.number, e.bom.length) := by
        rw [← hdata]
        exact readBOM_bom e data
      refine ⟨_, readBOM_opened hmark, yields_encode rfl ?_⟩
      rw [← hdata, append_assoc] at hjoined
      rw [← hdata, bytes]
      rw [drop_left]
      exact append_cancel_left hjoined
    · refine iff_of_false (not_decodes_short hjoined (by omega)) ?_
      rintro ⟨first', rest', heq, hlong'⟩
      cases heq
      exact hlong hlong'

/-- The first byte of a file with an `A` in UTF-16. -/
def markStart : Chunk := ⟨[0xFF], by decide⟩

def markEnd : Chunk := ⟨[0xFE, 65, 0], by decide⟩

/-- Read in these two pieces, the file gives its mark as a character. -/
theorem split_mark_is_read :
    [markStart, markEnd].flatMap Subtype.val =
        Encoding.utf16LE.bom ++ Encoding.utf16LE.encode [⟨'A', by decide⟩] ∧
      Decodes [markStart, markEnd] [0xFEFF, 65] ∧
      ¬Decodes [markStart, markEnd] (units [⟨'A', by decide⟩]) := by
  have hbom : (opened [markStart, markEnd]).readBOM = (.success, ⟨[0xFF], 0, [markEnd]⟩) := rfl
  have hyields : Yields ⟨[0xFF], 0, [markEnd]⟩ [0xFEFF, 65] := yields_toWide rfl
  exact ⟨rfl, ⟨_, hbom, hyields⟩, not_decodes hbom hyields (by decide)⟩

end Stream

end Sandboxie
