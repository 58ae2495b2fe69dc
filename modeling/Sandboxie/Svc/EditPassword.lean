import Sandboxie.Common.Base64
import Sandboxie.Common.Ini
import Sandboxie.Lib.Bytes

/-!
# The password of the configuration

`IsCallerAuthorized` and `SetOrTestPassword` of `svc/sbieiniserver.cpp`.  The hash functions of
the crypto provider are parameters.  What the driver has in `EditPassword` is the salt and the
hash in base 64; the passwords themselves are the level above it.
-/

namespace Sandboxie.EditPassword

open Base64 Ini List

variable (sha1 : List WChar → List WChar) (sha256 : List UInt8 → List UInt8)

/-- `HashPassword2`, which hashes no more than 64 characters. -/
def hashPassword2 (password : List WChar) (salt : List UInt8) : List UInt8 :=
  sha256 (salt ++ (password.take 64).flatMap Bytes.ofU16)

/-- The part of `IsCallerAuthorized` about the password, for what is in `EditPassword`. -/
def passwordFits (buf password : List WChar) : Bool :=
  if buf = [] then true
  else if buf.length = 40 then sha1 password == buf
  else if buf.length = 64 then
    match b64Decode buf (replicate 48 0) with
    | some (true, combined) =>
      combined.drop 16 == hashPassword2 sha256 password (combined.take 16)
    | _ => false
  else false

/-- A request, with what the calls of the system give it: whether the caller is an
administrator, the salt, and the status of the calls that make the hash and set it. -/
structure Request where
  isAdmin : Bool
  oldPassword : List WChar
  newPassword : Option (List WChar)
  salt : List UInt8
  stored : Status

def statusLogonNotGranted : Status := .failed 0xC0000155
def statusWrongPassword : Status := .failed 0xC000006A

/-- `SetOrTestPassword`, which only tests when there is no new password. -/
def setOrTestPassword (editAdminOnly : Bool) (buf : List WChar) (req : Request) :
    List WChar × Status :=
  if editAdminOnly && !req.isAdmin then (buf, statusLogonNotGranted)
  else if passwordFits sha1 sha256 buf req.oldPassword then
    match req.newPassword with
    | none => (buf, .success)
    | some password =>
      if !req.stored.ok then (buf, req.stored)
      else if password = [] then ([], req.stored)
      else (b64Encode (req.salt ++ hashPassword2 sha256 password req.salt), req.stored)
  else (buf, statusWrongPassword)

/-- The answers to requests that come one after the other. -/
def answers (editAdminOnly : Bool) : List WChar → List Request → List Status
  | _, [] => []
  | buf, req :: reqs =>
    let after := setOrTestPassword sha1 sha256 editAdminOnly buf req
    after.2 :: answers editAdminOnly after.1 reqs

/-! ### The passwords -/

/-- The password that protects the configuration, with its salt. -/
abbrev Protection := Option (List WChar × List UInt8)

/-- A password opens when its hash is that of the one that protects. -/
def Opens (password : List WChar) (p : Protection) : Prop :=
  ∀ q ∈ p, hashPassword2 sha256 password q.2 = hashPassword2 sha256 q.1 q.2

instance (password : List WChar) (p : Protection) : Decidable (Opens sha256 password p) :=
  inferInstanceAs (Decidable (∀ q ∈ p, _))

/-- What protects after a request that succeeds. -/
def Request.protects (req : Request) (p : Protection) : Protection :=
  match req.newPassword with
  | none => p
  | some password => if password = [] then none else some (password, req.salt)

/-- A request succeeds with a password that opens. -/
def succeeds (editAdminOnly : Bool) (p : Protection) (req : Request) : Bool :=
  (!editAdminOnly || req.isAdmin) && decide (Opens sha256 req.oldPassword p) &&
    (req.newPassword.isNone || req.stored.ok)

/-- Which requests succeed; no other changes what protects. -/
def successes (editAdminOnly : Bool) : Protection → List Request → List Bool
  | _, [] => []
  | p, req :: reqs =>
    let ok := succeeds sha256 editAdminOnly p req
    ok :: successes editAdminOnly (if ok then req.protects p else p) reqs

/-- What is in `EditPassword`. -/
def Stored (buf : List WChar) : Protection → Prop
  | none => buf = []
  | some (password, salt) =>
    salt.length = 16 ∧ buf = b64Encode (salt ++ hashPassword2 sha256 password salt)

variable {sha256} {buf : List WChar} {p : Protection}

theorem passwordFits_stored (hsha : ∀ data, (sha256 data).length = 32) (h : Stored sha256 buf p)
    (password : List WChar) :
    passwordFits sha1 sha256 buf password = decide (Opens sha256 password p) := by
  cases p with
  | none =>
    obtain rfl : buf = [] := h
    exact (decide_eq_true fun q hq => by cases hq).symm
  | some q =>
    obtain ⟨protecting, salt⟩ := q
    obtain ⟨hsalt, rfl⟩ := h
    have hlen : (salt ++ hashPassword2 sha256 protecting salt).length = 48 := by
      rw [length_append, hsalt, hashPassword2, hsha]
    have htext : (b64Encode (salt ++ hashPassword2 sha256 protecting salt)).length = 64 := by
      rw [length_b64Encode, hlen]
      rfl
    have hdecode := b64Decode_b64Encode (salt ++ hashPassword2 sha256 protecting salt)
      (replicate 48 0) (by omega) (by rw [hlen]; decide)
    rw [hlen, drop_of_length_le (by decide), append_nil] at hdecode
    rw [passwordFits, if_neg (ne_nil_of_length_pos (by omega)), if_neg (by omega), if_pos htext,
      hdecode]
    simp only [← hsalt, drop_left, take_left]
    rw [Bool.eq_iff_iff, beq_iff_eq, decide_eq_true_eq]
    simp [Opens, eq_comm]

theorem setOrTestPassword_refines (editAdminOnly : Bool) (hsha : ∀ data, (sha256 data).length = 32)
    (h : Stored sha256 buf p) {req : Request} (hsalt : req.salt.length = 16) :
    let after := setOrTestPassword sha1 sha256 editAdminOnly buf req
    let ok := succeeds sha256 editAdminOnly p req
    after.2.ok = ok ∧ Stored sha256 after.1 (if ok then req.protects p else p) := by
  dsimp only
  rw [succeeds, ← passwordFits_stored sha1 hsha h, setOrTestPassword]
  by_cases hadmin : (editAdminOnly && !req.isAdmin) = true
  · have hrefused : (!editAdminOnly || req.isAdmin) = false := by simpa using hadmin
    rw [if_pos hadmin, hrefused]
    exact ⟨rfl, h⟩
  have hadmitted : (!editAdminOnly || req.isAdmin) = true := by grind
  rw [if_neg hadmin, hadmitted, Bool.true_and]
  cases hfits : passwordFits sha1 sha256 buf req.oldPassword with
  | false => exact ⟨rfl, h⟩
  | true =>
    rw [if_pos rfl]
    cases hnew : req.newPassword with
    | none => exact ⟨rfl, by simpa [Request.protects, hnew] using h⟩
    | some password =>
      cases hstored : req.stored.ok with
      | false => simpa [hstored] using h
      | true =>
        by_cases hempty : password = []
        · simp [Request.protects, hnew, hempty, Stored, hstored]
        · simp [Request.protects, hnew, hempty, Stored, hstored, hsalt]

end Sandboxie.EditPassword
