import Sandboxie.Lib.Stores

/-!
# Strings of a caller

`Api_CopyStringToUser` and `Api_CopyStringFromUser` of `core/drv/api.c`.  Lengths are in bytes; a
string that is given to a caller is counted with its terminator, one that comes from a caller is
counted without.
-/

namespace Sandboxie.ApiStrings

open Bytes

structure UnicodeString64 where
  length : UInt16
  maximumLength : UInt16
  buffer : Nat

/-- What a caller passes for a string: a structure that cannot be probed is an exception. -/
inductive Argument
  | null
  | invalid
  | given (uni : UnicodeString64)

/-- The memory of the caller, which ends at `limit`.  What cannot be read or written there is an
exception. -/
structure UserMemory where
  limit : Nat
  read : Nat → Option UInt8
  writable : Nat → Bool

namespace UserMemory

/-- `ProbeForRead` raises no exception. -/
def probeForRead (u : UserMemory) (address length alignment : Nat) : Bool :=
  length = 0 ∨ (alignment ∣ address ∧ address + length ≤ u.limit)

/-- `ProbeForWrite` raises no exception. -/
def probeForWrite (u : UserMemory) (address length alignment : Nat) : Bool :=
  u.probeForRead address length alignment && (List.range length).all fun i =>
    u.writable (address + i)

/-- The source of a `memcpy`. -/
def bytes (u : UserMemory) : Nat → Nat → Option (List UInt8)
  | _, 0 => some []
  | address, length + 1 =>
    (u.read address).bind fun b => (u.bytes (address + 1) length).map (b :: ·)

end UserMemory

/-! ### The code -/

/-- How `Api_CopyStringToUser` ends: with the bytes in the buffer and `Length`. -/
inductive ToUser
  | nothing
  | raised
  | copied (written : List UInt8) (length : UInt16)

/-- How `Api_CopyStringFromUser` ends: with the block in `str`. -/
inductive FromUser
  | nothing
  | raised
  | insufficientResources
  | copied (block : List UInt8)

/-- `Api_CopyStringToUser` -/
def copyStringToUser (u : UserMemory) (uni : Argument) (str : List UInt8) : ToUser :=
  match uni with
  | .null => .nothing
  | .invalid => .raised
  | .given uni =>
    let len := str.length
    if uni.maximumLength.toNat < len then .raised
    else if u.probeForWrite uni.buffer len 2 = false then .raised
    else if len ≠ 0 then .copied str (UInt16.ofNat len - 2)
    else .copied [] 0

/-- `Api_CopyStringFromUser`; nothing where the store of the terminator leaves the block. -/
def copyStringFromUser (u : UserMemory) (grant : Bool) (uni : Argument) : Option FromUser :=
  match uni with
  | .null => some .nothing
  | .invalid => some .raised
  | .given uni =>
    let len := uni.length.toNat + 2
    if u.probeForRead uni.buffer len 2 = false then some .raised
    else if grant = false then some .insufficientResources
    else
      match u.bytes uni.buffer len with
      | none => some .raised
      | some str => (store str (2 * (len / 2)) [0, 0]).map .copied

/-! ### What is meant -/

/-- What is written is not more than there is room for, and `Length` is not more than that. -/
def ToUserMeets (u : UserMemory) (uni : Argument) (str : List UInt8) : Prop :=
  ∀ s, uni = .given s → ∀ written length, copyStringToUser u uni str = .copied written length →
    written.length ≤ s.maximumLength.toNat ∧ length.toNat ≤ written.length

/-- The stores are in the block, and it has the counted text with a terminator. -/
def FromUserMeets (u : UserMemory) (grant : Bool) (uni : Argument) : Prop :=
  ∃ r, copyStringFromUser u grant uni = some r ∧
    ∀ s, uni = .given s → ∀ block, r = .copied block →
      ∃ text rest, u.bytes s.buffer s.length.toNat = some text ∧ block = text ++ 0 :: 0 :: rest

/-! ### When that is so -/

variable {u : UserMemory} {uni : Argument}

theorem length_bytes : ∀ {length address : Nat} {b : List UInt8},
    u.bytes address length = some b → b.length = length := by
  intro length
  induction length with
  | zero =>
    intro address b h
    rw [← Option.some.inj h]
    rfl
  | succ length ih =>
    intro address b h
    obtain ⟨c, -, h⟩ := Option.bind_eq_some_iff.mp h
    obtain ⟨rest, hrest, rfl⟩ := Option.map_eq_some_iff.mp h
    rw [List.length_cons, ih hrest]

def Copies (u : UserMemory) (grant : Bool) (s : UnicodeString64) : Prop :=
  u.probeForRead s.buffer (s.length.toNat + 2) 2 = true ∧ grant = true ∧
    (u.bytes s.buffer (s.length.toNat + 2)).isSome = true

theorem copyStringFromUser_none {grant : Bool} {s : UnicodeString64} (h : Copies u grant s) :
    copyStringFromUser u grant (.given s) = none := by
  obtain ⟨hprobe, hgrant, hread⟩ := h
  obtain ⟨str, hstr⟩ := Option.isSome_iff_exists.mp hread
  have hlen := length_bytes hstr
  rw [copyStringFromUser, hprobe, hgrant, if_neg (by decide), if_neg (by decide), hstr]
  dsimp only
  rw [store, if_neg]
  · rfl
  · rw [hlen, List.length_cons, List.length_singleton]
    omega

theorem toNat_length_sub {len : Nat} (hlen : len < 2 ^ 16) (hne : len ≠ 0) :
    (UInt16.ofNat len - 2).toNat ≤ len ↔ len ≠ 1 := by
  rw [UInt16.toNat_sub, UInt16.toNat_ofNat_of_lt' hlen]
  show (2 ^ 16 - 2 + len) % 2 ^ 16 ≤ len ↔ len ≠ 1
  omega

/-- **The strings of a caller**: one from the caller is right only as long as nothing is copied,
and one to the caller unless a single byte is copied. -/
theorem copyString_iff (u : UserMemory) (uni : Argument) :
    (∀ grant, FromUserMeets u grant uni ↔ ∀ s, uni = .given s → ¬Copies u grant s) ∧
      ∀ str, ToUserMeets u uni str ↔
        ∀ s, uni = .given s → str.length = 1 → s.maximumLength.toNat < 1 ∨
          u.probeForWrite s.buffer 1 2 = false := by
  constructor
  · intro grant
    constructor
    · rintro ⟨r, hr, -⟩ s rfl hcopies
      rw [copyStringFromUser_none hcopies] at hr
      cases hr
    intro h
    cases uni with
    | null => exact ⟨_, rfl, nofun⟩
    | invalid => exact ⟨_, rfl, nofun⟩
    | given s =>
      have hnot := h s rfl
      unfold FromUserMeets
      rw [copyStringFromUser]
      by_cases hprobe : u.probeForRead s.buffer (s.length.toNat + 2) 2 = false
      · rw [if_pos hprobe]
        exact ⟨_, rfl, nofun⟩
      rw [if_neg hprobe]
      by_cases hgrant : grant = false
      · rw [if_pos hgrant]
        exact ⟨_, rfl, nofun⟩
      rw [if_neg hgrant]
      cases hread : u.bytes s.buffer (s.length.toNat + 2) with
      | none => exact ⟨_, rfl, nofun⟩
      | some str =>
        refine absurd ⟨eq_true_of_ne_false hprobe, eq_true_of_ne_false hgrant, ?_⟩ hnot
        rw [hread]
        rfl
  · intro str
    cases uni with
    | null => exact iff_of_true nofun nofun
    | invalid => exact iff_of_true nofun nofun
    | given s =>
      have hin : ∀ P : UnicodeString64 → Prop, (∀ t, Argument.given s = .given t → P t) ↔ P s :=
        fun P => ⟨fun h => h s rfl, fun h t ht => (Argument.given.inj ht) ▸ h⟩
      rw [ToUserMeets, hin, hin, copyStringToUser]
      by_cases hroom : s.maximumLength.toNat < str.length
      · rw [if_pos hroom]
        exact iff_of_true nofun fun hlen => .inl (hlen ▸ hroom)
      rw [if_neg hroom]
      by_cases hprobe : u.probeForWrite s.buffer str.length 2 = false
      · rw [if_pos hprobe]
        exact iff_of_true nofun fun hlen => .inr (hlen ▸ hprobe)
      rw [if_neg hprobe]
      have hmax := s.maximumLength.toNat_lt
      by_cases hzero : str.length = 0
      · rw [if_neg (not_not.mpr hzero)]
        refine iff_of_true ?_ fun hlen => absurd (hzero.symm.trans hlen) (by decide)
        rintro written length ⟨⟩
        exact ⟨Nat.zero_le _, Nat.le_refl 0⟩
      · rw [if_pos hzero]
        have hlen := toNat_length_sub (by omega) hzero
        constructor
        · intro h hone
          exact absurd hone (hlen.mp (h _ _ rfl).2)
        · rintro h written length ⟨⟩
          refine ⟨Nat.not_lt.mp hroom, hlen.mpr fun hone => ?_⟩
          rcases h hone with h | h
          · omega
          · exact hprobe (hone ▸ h)

/-- A caller's string `A`. -/
def letterA : UnicodeString64 := ⟨2, 4, 0⟩

/-- Of a counted string of two bytes the terminator is put behind the block of four. -/
theorem not_fromUserMeets : ¬FromUserMeets ⟨4, fun _ => some 0, fun _ => true⟩ true
    (.given letterA) := by
  rintro ⟨r, hr, -⟩
  cases hr

end Sandboxie.ApiStrings
