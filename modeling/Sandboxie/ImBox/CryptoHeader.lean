import Sandboxie.Common.Text
import Sandboxie.Lib.Bytes

/-!
# The header of an encrypted image

`dc_header` of `ImBox/dc/include/volume.h` and `dc_decrypt_header`.  The header is encrypted
as a whole and then has its salt in the clear over the first blocks, so the salt is no part of
what decryption gives back.

The ciphers and the derivation of keys are parameters.  `Xts` says what is used of the
ciphers: what was encrypted can be decrypted, and blocks are decrypted one by one.
-/

namespace Sandboxie.CryptoIO

open Bytes List

def DC_VOLUME_SIGN : Nat := 0x50524344
def DC_INFO_MAGIC : Nat := 0x64637669
def DC_AREA_SIZE : Nat := 2048
def PKCS5_SALT_SIZE : Nat := 64
def DISKKEY_SIZE : Nat := 256
def CF_CIPHERS_NUM : Nat := 7

/-- The bytes of `dc_header` -/
abbrev Header := { bytes : List UInt8 // bytes.length = DC_AREA_SIZE }

abbrev Salt := { bytes : List UInt8 // bytes.length = PKCS5_SALT_SIZE }

namespace Header

def salt (h : Header) : List UInt8 := h.val.take PKCS5_SALT_SIZE
def sign (h : Header) : Nat := u32 h.val 64
def flags (h : Header) : Nat := u32 h.val 74
def alg_1 (h : Header) : Nat := u32 h.val 82
def key_1 (h : Header) : List UInt8 := (h.val.drop 86).take DISKKEY_SIZE
def info_magic (h : Header) : Nat := u32 h.val 1016
def info_size (h : Header) : Nat := u16 h.val 1022
def info_data (h : Header) : List UInt8 := h.val.drop 1024

/-- `memcpy` into the header -/
def put (h : Header) (off : Nat) (d : List UInt8) (hoff : off + d.length ≤ DC_AREA_SIZE) : Header :=
  ⟨splice h.val off d, (length_splice (by rw [h.property]; exact hoff)).trans h.property⟩

/-- The salt of one and the rest of another. -/
def behind (salt : Salt) (h : Header) : Header :=
  ⟨salt.val ++ h.val.drop PKCS5_SALT_SIZE, by
    rw [List.length_append, List.length_drop, salt.property, h.property]
    rfl⟩

end Header

/-- The ciphers of `xts_fast.c` in the sector at 0, by the key and the algorithm. -/
structure Xts where
  encrypt : List UInt8 → Nat → Header → Header
  decrypt : List UInt8 → Nat → Header → Header
  decrypt_encrypt : ∀ (dk : List UInt8) (alg : Nat) (h : Header), alg < CF_CIPHERS_NUM →
    decrypt dk alg (encrypt dk alg h) = h
  decrypt_drop : ∀ (dk : List UInt8) (alg n : Nat) (h h' : Header), 16 ∣ n →
    h.val.drop n = h'.val.drop n → (decrypt dk alg h).val.drop n = (decrypt dk alg h').val.drop n

/-- What is outside of the model: the ciphers, and `sha512_pkcs5_2` of a password and a salt. -/
structure Crypto where
  xts : Xts
  pkcs5 : List WChar → List UInt8 → List UInt8

variable (crypto : Crypto)

def Crypto.headerKey (password : List WChar) (header : Header) : List UInt8 :=
  crypto.pkcs5 password header.salt

/-- A round of the loop of `dc_decrypt_header`. -/
def tryCipher (dk : List UInt8) (header : Header) (i : Nat) : Option Header :=
  let hcopy := crypto.xts.decrypt dk i header
  if hcopy.sign = DC_VOLUME_SIGN then
    some (Header.behind ⟨header.salt, by
      rw [Header.salt, List.length_take, header.property]
      rfl⟩ hcopy)
  else none

def dc_decrypt_header (header : Header) (password : List WChar) : Option Header :=
  let dk := crypto.headerKey password header
  (List.range CF_CIPHERS_NUM).findSome? (tryCipher crypto dk header)

/-! ### Fields -/

namespace Header

/-- The fields behind the salt are the same. -/
def Agree (h h' : Header) : Prop := h.val.drop PKCS5_SALT_SIZE = h'.val.drop PKCS5_SALT_SIZE

theorem behind_agree (salt : Salt) (h : Header) : (behind salt h).Agree h := by
  show (salt.val ++ h.val.drop PKCS5_SALT_SIZE).drop PKCS5_SALT_SIZE = _
  rw [drop_append_of_le_length (Nat.le_of_eq salt.property.symm), drop_of_length_le
    (Nat.le_of_eq salt.property),
    nil_append]

theorem salt_behind (salt : Salt) (h : Header) : (behind salt h).salt = salt.val := by
  show (salt.val ++ h.val.drop PKCS5_SALT_SIZE).take PKCS5_SALT_SIZE = _
  rw [take_append_of_le_length (Nat.le_of_eq salt.property.symm), take_of_length_le
    (Nat.le_of_eq salt.property)]

variable {h h' : Header}

theorem Agree.sign (hagree : h.Agree h') : h.sign = h'.sign := u32_of_drop hagree (by decide)

theorem Agree.flags (hagree : h.Agree h') : h.flags = h'.flags := u32_of_drop hagree (by decide)

theorem Agree.alg_1 (hagree : h.Agree h') : h.alg_1 = h'.alg_1 := u32_of_drop hagree (by decide)

theorem Agree.key_1 (hagree : h.Agree h') : h.key_1 = h'.key_1 :=
  congrArg (List.take DISKKEY_SIZE) (drop_of_drop hagree (by decide))

theorem Agree.info_magic (hagree : h.Agree h') : h.info_magic = h'.info_magic :=
  u32_of_drop hagree (by decide)

theorem Agree.info_size (hagree : h.Agree h') : h.info_size = h'.info_size :=
  u16_of_drop hagree (by decide)

theorem Agree.info_data (hagree : h.Agree h') : h.info_data = h'.info_data :=
  drop_of_drop hagree (by decide)

theorem put_fields {off : Nat} {d : List UInt8} (hoff : off + d.length ≤ DC_AREA_SIZE)
    (hbehind : 1016 ≤ off) : (h.put off d hoff).sign = h.sign ∧
      (h.put off d hoff).flags = h.flags ∧ (h.put off d hoff).alg_1 = h.alg_1 ∧
      (h.put off d hoff).key_1 = h.key_1 := by
  have hlen : off + d.length ≤ h.val.length := Nat.le_trans hoff (Nat.le_of_eq h.property.symm)
  refine ⟨?_, ?_, ?_, ?_⟩
  · exact u32_splice_of_disjoint hlen (Or.inl (by omega))
  · exact u32_splice_of_disjoint hlen (Or.inl (by omega))
  · exact u32_splice_of_disjoint hlen (Or.inl (by omega))
  · exact part_splice_of_le (by omega) (by rw [DISKKEY_SIZE]; omega)

end Header

/-! ### What was encrypted is found again -/

variable {crypto} {dk : List UInt8} {password : List WChar} {header h : Header}

theorem tryCipher_eq_some {i : Nat} (hsome : tryCipher crypto dk header i = some h) :
    h.Agree (crypto.xts.decrypt dk i header) ∧ h.sign = DC_VOLUME_SIGN := by
  unfold tryCipher at hsome
  simp only at hsome
  split_ifs at hsome with hsign
  cases hsome
  refine ⟨Header.behind_agree _ _, ?_⟩
  rw [(Header.behind_agree _ _).sign]
  exact hsign

theorem sign_of_decrypt (hsome : dc_decrypt_header crypto header password = some h) :
    h.sign = DC_VOLUME_SIGN := by
  obtain ⟨i, -, hi⟩ := exists_of_findSome?_eq_some hsome
  exact (tryCipher_eq_some hi).2

theorem findSome?_range {α : Type} {f : Nat → Option α} {a : α} {i : Nat} (hi : f i = some a)
    (hbefore : ∀ j < i, f j = none) : ∀ n, i < n → (List.range n).findSome? f = some a := by
  intro n
  induction n with
  | zero => exact fun h => absurd h (Nat.not_lt_zero i)
  | succ n ih =>
    intro hn
    rw [range_succ, findSome?_append]
    by_cases heq : i = n
    · have hnone : (List.range n).findSome? f = none := by
        rw [findSome?_eq_none_iff]
        exact fun j hj => hbefore j (heq ▸ mem_range.mp hj)
      rw [hnone, findSome?_singleton, ← heq, hi]
      rfl
    · rw [ih (by omega)]
      rfl

def written (crypto : Crypto) (password : List WChar) (salt : Salt) (header : Header) : Header :=
  Header.behind salt (crypto.xts.encrypt (crypto.pkcs5 password salt.val) header.alg_1 header)

/-- No cipher before that of the header takes what is written for a header. -/
def Clear (crypto : Crypto) (password : List WChar) (salt : Salt) (header : Header) : Prop :=
  ∀ i < header.alg_1, (crypto.xts.decrypt (crypto.pkcs5 password salt.val) i
    (written crypto password salt header)).sign ≠ DC_VOLUME_SIGN

theorem decrypt_written {salt : Salt} (hsign : header.sign = DC_VOLUME_SIGN)
    (halg : header.alg_1 < CF_CIPHERS_NUM) (hclear : Clear crypto password salt header) :
    ∃ new, dc_decrypt_header crypto (written crypto password salt header) password = some new ∧
      new.Agree header := by
  have hkey : crypto.headerKey password (written crypto password salt header) =
      crypto.pkcs5 password salt.val :=
    congrArg (crypto.pkcs5 password) (Header.salt_behind _ _)
  have hsame : Header.Agree (crypto.xts.decrypt (crypto.pkcs5 password salt.val) header.alg_1
      (written crypto password salt header)) header := by
    have hdrop := crypto.xts.decrypt_drop (crypto.pkcs5 password salt.val) header.alg_1
      PKCS5_SALT_SIZE _ _ (by decide) (Header.behind_agree salt
        (crypto.xts.encrypt (crypto.pkcs5 password salt.val) header.alg_1 header))
    rw [crypto.xts.decrypt_encrypt _ _ _ halg] at hdrop
    exact hdrop
  have hfound : ∃ new, tryCipher crypto (crypto.pkcs5 password salt.val)
      (written crypto password salt header) header.alg_1 = some new := by
    unfold tryCipher
    simp only
    rw [if_pos (hsame.sign.trans hsign)]
    exact ⟨_, rfl⟩
  obtain ⟨new, hnew⟩ := hfound
  refine ⟨new, ?_, (tryCipher_eq_some hnew).1.trans hsame⟩
  unfold dc_decrypt_header
  simp only
  rw [hkey]
  refine findSome?_range hnew (fun i hi => ?_) CF_CIPHERS_NUM halg
  unfold tryCipher
  simp only
  rw [if_neg (hclear i hi)]

end Sandboxie.CryptoIO
