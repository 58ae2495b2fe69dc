import Sandboxie.Lib.Bytes

/-!
# The obfuscation of values

`common/rc4.c` and `SbieIniServer::RC4Crypt` of `svc/sbieiniserver.cpp`.
-/

namespace Sandboxie.Rc4

open List

/-- `rc4_sbox_t` -/
structure Sbox where
  state : List UInt8
  x : UInt32
  y : UInt32

def entry (state : List UInt8) (i : UInt32) : UInt8 := state.getD i.toNat 0

def rc4Swap (state : List UInt8) (i j : UInt32) : List UInt8 :=
  (state.set i.toNat (entry state j)).set j.toNat (entry state i)

/-- A round of the mixing permutation, with `j`. -/
def mix (key : List UInt8) (s : List UInt8 × UInt32) (i : Nat) : List UInt8 × UInt32 :=
  let j := ((key.getD (i % key.length) 0).toUInt32 + (entry s.1 (UInt32.ofNat i)).toUInt32 + s.2)
    &&& 0xff
  (rc4Swap s.1 (UInt32.ofNat i) j, j)

def rc4Init (key : List UInt8) : Sbox :=
  { state := ((range 256).foldl (mix key) ((range 256).map UInt8.ofNat, 0)).1, x := 0, y := 0 }

/-- The pseudo-random generation, and its `keyChar`. -/
def generate (s : Sbox) : Sbox × UInt8 :=
  let x := (s.x + 1) &&& 0xff
  let y := (s.y + (entry s.state x).toUInt32) &&& 0xff
  let state := rc4Swap s.state x y
  ({ state := state, x := x, y := y },
    entry state (((entry state x).toUInt32 + (entry state y).toUInt32) &&& 0xff))

/-- `rc4_transform` without a buffer. -/
def seek : Sbox → Nat → Sbox
  | s, 0 => s
  | s, n + 1 => seek (generate s).1 n

def rc4Transform : Sbox → List UInt8 → List UInt8
  | _, [] => []
  | s, b :: buffer => (b ^^^ (generate s).2) :: rc4Transform (generate s).1 buffer

def rc4Crypt (key : List UInt8) (streamPos : Nat) (buffer : List UInt8) : List UInt8 :=
  rc4Transform (seek (rc4Init key) streamPos) buffer

theorem rc4Transform_twice (s : Sbox) (buffer : List UInt8) :
    rc4Transform s (rc4Transform s buffer) = buffer := by
  induction buffer generalizing s with
  | nil => rfl
  | cons b buffer ih => rw [rc4Transform, rc4Transform, ih, UInt8.xor_assoc, UInt8.xor_self,
      UInt8.xor_zero]

/-! ### The service -/

/-- What the system gives a request: whether the secure parameter can be read, what `rand`
makes of it, and whether it can be set. -/
structure Env where
  read : Bool
  rand : UInt64
  set : Bool

/-- The `RandID` that a request works with. -/
def Env.key (env : Env) (randID : UInt64) : UInt64 :=
  if env.read = true ∧ randID ≠ 0 then randID else env.rand

/-- The secure parameter after a request. -/
def Env.after (env : Env) (randID : UInt64) : UInt64 :=
  if env.read = true ∧ randID ≠ 0 then randID else if env.set then env.rand else randID

/-- The value in the reply of `RC4Crypt`. -/
def reply (randID : UInt64) (env : Env) (value : List UInt8) : List UInt8 :=
  rc4Crypt (Bytes.ofU64 (env.key randID).toNat) 0x1000 value

/-- **A value comes back**: when it is sent again after any other requests.  A key was there or
one that is not zero could be stored, and from then on it could be read. -/
theorem reply_reply {randID : UInt64} {env last : Env} {others : List Env}
    (hkey : env.read = true ∧ randID ≠ 0 ∨ env.set = true ∧ env.rand ≠ 0)
    (hread : ∀ e ∈ others, e.read = true) (hlast : last.read = true) (value : List UInt8) :
    reply (others.foldl (fun id e => e.after id) (env.after randID)) last
      (reply randID env value) = value := by
  have hfirst : env.after randID = env.key randID ∧ env.key randID ≠ 0 := by
    rw [Env.after, Env.key]
    split_ifs with hthere hset
    · exact ⟨rfl, hthere.2⟩
    · exact ⟨rfl, (hkey.resolve_left hthere).2⟩
    · exact absurd (hkey.resolve_left hthere).1 hset
  have hkept : others.foldl (fun id e => e.after id) (env.after randID) = env.key randID := by
    rw [hfirst.1]
    induction others with
    | nil => rfl
    | cons e others ih =>
      have he : e.after (env.key randID) = env.key randID :=
        if_pos ⟨hread e mem_cons_self, hfirst.2⟩
      rw [foldl_cons, he]
      exact ih fun e' he' => hread e' (mem_cons_of_mem e he')
  have hsame : last.key (env.key randID) = env.key randID := if_pos ⟨hlast, hfirst.2⟩
  rw [hkept, reply, reply, hsame]
  exact rc4Transform_twice _ value

theorem reply_reply_first : reply ((⟨true, 7, true⟩ : Env).after 0) ⟨true, 0, false⟩
    (reply 0 ⟨true, 7, true⟩ [65, 66]) = [65, 66] :=
  @reply_reply 0 ⟨true, 7, true⟩ ⟨true, 0, false⟩ [] (.inr ⟨rfl, by decide⟩)
    (fun _ he => by cases he) rfl _

end Sandboxie.Rc4
