import Sandboxie.Common.Ini
import Sandboxie.Lib.Bytes

/-!
# The length of a settings request

`SbieIniServer::CheckRequest` and the check in front of `SetTemplate` of
`svc/sbieiniserver.cpp`.  The request counts the characters of its value in 32 bits; the check
doubles the count in a `ULONG`, adds the place of the value, and then looks for the terminator
behind the counted text.
-/

namespace Sandboxie.IniRequest

open Bytes Text

/-- A received message: as many bytes as its `MSG_HEADER` says. -/
structure Message where
  bytes : List UInt8
  length_eq : u32 bytes 0 = bytes.length

namespace Message

/-- `h.length` -/
def length (msg : Message) : Nat := u32 msg.bytes 0

theorem length_lt (msg : Message) : msg.length < 2 ^ 32 := u32_lt _ _

end Message

/-- What is in the memory behind a message; `none` where there is no memory. -/
abbrev Behind := Nat → Option UInt8

def byteFrom (msg : Message) (behind : Behind) (i : Nat) : Option UInt8 :=
  if i < msg.bytes.length then some (byteAt msg.bytes i) else behind (i - msg.bytes.length)

/-- A `WCHAR` at an offset from the message. -/
def wcharFrom (msg : Message) (behind : Behind) (i : Nat) : Option Nat :=
  match byteFrom msg behind i, byteFrom msg behind (i + 1) with
  | some a, some b => some (a.toNat + 2 ^ 8 * b.toNat)
  | _, _ => none

/-- Where a request has the count of the characters of its value, and the value. -/
structure Layout where
  sizeof : Nat
  valueLen : Nat
  value : Nat
  value_le : value + 2 ≤ sizeof
  sizeof_le : sizeof ≤ 2 ^ 16

/-- `SBIE_INI_SETTING_REQ` -/
def settingReq : Layout := ⟨416, 408, 412, by decide, by decide⟩

/-- `SBIE_INI_TEMPLATE_REQ` -/
def templateReq : Layout := ⟨284, 276, 280, by decide, by decide⟩

abbrev pipeMaxDataLen : Nat := 0x00FFFFFF

inductive Check
  | passed
  | invalidParameter
  | exception
deriving DecidableEq

/-- The count of the characters, `req->value_len`. -/
def count (layout : Layout) (msg : Message) : Nat := u32 msg.bytes layout.valueLen

def checkLength (layout : Layout) (msg : Message) (behind : Behind) : Check :=
  if msg.length < layout.sizeof then .invalidParameter
  else
    -- the product has 64 bits, and is put into a `ULONG`
    let valueLen := count layout msg * 2 % 2 ^ 32
    if pipeMaxDataLen < valueLen then .invalidParameter
    else if msg.length < (layout.value + valueLen) % 2 ^ 32 then .invalidParameter
    else
      match wcharFrom msg behind (layout.value + count layout msg * 2) with
      | none => .exception
      | some c => if c ≠ 0 then .invalidParameter else .passed

structure Caller where
  openThreadToken : Bool
  setUserSettingsSectionName : Bool
  isCallerAuthorized : List Nat → List Nat → Ini.Status

def field (msg : Message) (off : Nat) : List Nat := (List.range 66).map fun i =>
  u16 msg.bytes (off + 2 * i)

/-- The section of a request, which is `GlobalSettings` when it is empty. -/
def sectionOf (msg : Message) : List Nat :=
  if u16 msg.bytes 142 = 0 then wide "GlobalSettings".toList else cut (field msg 142)

/-- `STATUS_NO_TOKEN` -/
def noToken : Ini.Status := .failed 0xC000007C

/-- What `CheckRequest` asks of the caller, behind the checks of the length. -/
def checkCaller (towlower : WChar → WChar) (caller : Caller) (msg : Message) : Ini.Status :=
  if caller.openThreadToken then
    if sameNoCase towlower ((sectionOf msg).take 13) (wide "UserSettings_".toList) then
      if caller.setUserSettingsSectionName then .success else noToken
    else caller.isCallerAuthorized (cut (field msg 8)) (sectionOf msg)
  else noToken

/-- `CheckRequest`; `none` for an exception. -/
def checkRequest (towlower : WChar → WChar) (caller : Caller) (msg : Message) (behind : Behind) :
    Option Ini.Status :=
  match checkLength settingReq msg behind with
  | .exception => none
  | .invalidParameter => some .invalidParameter
  | .passed => some (checkCaller towlower caller msg)

/-- The counted text and its terminator are inside of the message. -/
def Inside (layout : Layout) (msg : Message) : Prop :=
  ∀ i ≤ count layout msg, layout.value + 2 * i + 2 ≤ msg.bytes.length

/-- The terminator of the counted text stands behind the message, and is there.  The text ends
with the message, or one byte in front of its end; or the count has its highest bit, and the
others count no more than what the message has. -/
structure Slips (layout : Layout) (msg : Message) (behind : Behind) : Prop where
  size : layout.sizeof ≤ msg.length
  short : count layout msg * 2 % 2 ^ 32 ≤ pipeMaxDataLen
  ends : if count layout msg < 2 ^ 31 then
      layout.value + 2 * count layout msg = msg.length ∨
        layout.value + 2 * count layout msg + 1 = msg.length
    else layout.value + 2 * (count layout msg - 2 ^ 31) ≤ msg.length
  null : wcharFrom msg behind (layout.value + count layout msg * 2) = some 0

theorem inside_iff (layout : Layout) (msg : Message) :
    Inside layout msg ↔ layout.value + 2 * count layout msg + 2 ≤ msg.length := by
  rw [Message.length, msg.length_eq]
  refine ⟨fun h => h _ (Nat.le_refl _), fun h i hi => ?_⟩
  omega

theorem checkLength_passed_iff (layout : Layout) (msg : Message) (behind : Behind) :
    checkLength layout msg behind = .passed ↔
      layout.sizeof ≤ msg.length ∧ count layout msg * 2 % 2 ^ 32 ≤ pipeMaxDataLen ∧
      layout.value + count layout msg * 2 % 2 ^ 32 ≤ msg.length ∧
      wcharFrom msg behind (layout.value + count layout msg * 2) = some 0 := by
  have hvalue := layout.value_le
  have hsizeof := layout.sizeof_le
  rw [checkLength]
  by_cases hsize : msg.length < layout.sizeof
  · rw [if_pos hsize]
    exact iff_of_false (by decide) fun h => by omega
  rw [if_neg hsize]
  by_cases hmax : pipeMaxDataLen < count layout msg * 2 % 2 ^ 32
  · rw [if_pos hmax]
    exact iff_of_false (by decide) fun h => by omega
  rw [if_neg hmax]
  -- the sum does not overflow, as the text is short
  have hpipe : pipeMaxDataLen = 0x00FFFFFF := rfl
  have hsum : (layout.value + count layout msg * 2 % 2 ^ 32) % 2 ^ 32 =
      layout.value + count layout msg * 2 % 2 ^ 32 := Nat.mod_eq_of_lt (by omega)
  rw [hsum]
  by_cases hends : msg.length < layout.value + count layout msg * 2 % 2 ^ 32
  · rw [if_pos hends]
    exact iff_of_false (by decide) fun h => by omega
  rw [if_neg hends]
  cases hchar : wcharFrom msg behind (layout.value + count layout msg * 2) with
  | none => exact iff_of_false (by decide) fun h => by cases h.2.2.2
  | some c =>
    by_cases hc : c = 0
    · rw [hc]
      exact iff_of_true rfl ⟨by omega, by omega, by omega, rfl⟩
    · refine iff_of_false ?_ fun h => hc (Option.some.inj h.2.2.2)
      simp [hc]

/-- **The length check lets a text through that is not inside exactly when it slips.** -/
theorem checkLength_inside_iff (layout : Layout) (msg : Message) (behind : Behind) :
    (checkLength layout msg behind = .passed ∧ ¬ Inside layout msg) ↔
      Slips layout msg behind := by
  have hcount : count layout msg < 2 ^ 32 := u32_lt _ _
  have hlength := msg.length_lt
  rw [checkLength_passed_iff, inside_iff]
  constructor
  · rintro ⟨⟨hsize, hshort, hfits, hnull⟩, houtside⟩
    refine ⟨hsize, hshort, ?_, hnull⟩
    split <;> omega
  · rintro ⟨hsize, hshort, hends, hnull⟩
    refine ⟨⟨hsize, hshort, ?_, hnull⟩, ?_⟩
    · split at hends <;> omega
    · split at hends <;> omega

/-- **When a request that is accepted has its whole text inside**: when it does not slip, or its
caller is refused. -/
theorem request_inside_iff (towlower : WChar → WChar) (caller : Caller) (msg : Message)
    (behind : Behind) :
    ((checkRequest towlower caller msg behind = some .success → Inside settingReq msg) ↔
      (Slips settingReq msg behind → checkCaller towlower caller msg ≠ .success)) ∧
    ((checkLength templateReq msg behind = .passed → Inside templateReq msg) ↔
      ¬ Slips templateReq msg behind) := by
  constructor
  · have haccepted : checkRequest towlower caller msg behind = some .success ↔
        checkLength settingReq msg behind = .passed ∧
          checkCaller towlower caller msg = .success := by
      rw [checkRequest]
      cases checkLength settingReq msg behind <;> simp
    rw [haccepted, ← checkLength_inside_iff]
    refine ⟨fun h hslips hcaller => hslips.2 (h ⟨hslips.1, hcaller⟩), fun h haccept => ?_⟩
    by_contra hinside
    exact h ⟨haccept.1, hinside⟩ haccept.2
  · rw [← checkLength_inside_iff, not_and, not_not]

def withCount (n : Nat) : List UInt8 :=
  ofU32 416 ++ List.replicate 404 0 ++ ofU32 n ++ [65, 0, 66, 0]

def upToEnd : Message := ⟨withCount 2, by decide +kernel⟩

def highBit : Message := ⟨withCount (2 ^ 31), by decide +kernel⟩

/-- Both are accepted when there are zeros behind them. -/
theorem checkRequest_slips :
    (checkRequest asciiLower ⟨true, true, fun _ _ => .success⟩ upToEnd (fun _ => some 0) =
        some .success ∧ ¬ Inside settingReq upToEnd) ∧
      checkRequest asciiLower ⟨true, true, fun _ _ => .success⟩ highBit (fun _ => some 0) =
        some .success ∧ ¬ Inside settingReq highBit := by
  refine ⟨⟨by decide +kernel, fun h => ?_⟩, by decide +kernel, fun h => ?_⟩
  · exact absurd (h 2 (by decide +kernel)) (by decide +kernel)
  · exact absurd (h 2 (by decide +kernel)) (by decide +kernel)

end Sandboxie.IniRequest
