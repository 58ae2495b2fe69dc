import Sandboxie.Common.Text

/-!
# Patterns

`common/pattern.c`.  `create` splits a pattern at its stars into constant parts,
`matchX` looks for the parts one after the other and says how much of a string was
matched, and `matchPathList` scans a list of patterns for the one that fits a path
best.

The three matching functions of the source call each other and jump back, and a
pattern can make them run for ever; here they take `fuel` and give `none` when it is
used up.
-/

namespace Sandboxie

/-- An element of `cons` in `PATTERN`: a constant part. -/
structure Con where
  hex : Bool
  noBs : Bool
  len : Nat
  ptr : List WChar
deriving DecidableEq, Repr

structure Pattern where
  numCons : Nat
  starMissing : Bool
  starAtHead : Bool
  starAtTail : Bool
  haveAQmark : Bool
  source : List WChar
  level : Nat
  cons : List Con
deriving DecidableEq, Repr

namespace Pattern

/-- `*` -/
abbrev star : WChar := '*'.toNat
/-- `?` -/
abbrev qmark : WChar := '?'.toNat
abbrev backslash : WChar := '\\'.toNat
/-- `_` -/
abbrev underscore : WChar := '_'.toNat

def patternHex : List WChar := wide ['_', '_', 'h', 'e', 'x']

/-! ### Searching -/

/-- The inner loop of `Pattern_wcsnstr_ex`, with the needle cut to its length. -/
def agrees : List WChar → List WChar → Bool
  | _, [] => true
  | [], _ :: _ => false
  | h :: hstr, n :: nstr => (h == n || n == qmark) && agrees hstr nstr

/-- `Pattern_wcsnstr_ex`: how far into `hstr` the needle is found. -/
def wcsnstrEx : List WChar → List WChar → Nat → Bool → Option Nat
  | [], _, _, _ => none
  | h :: hstr, nstr, nlen, noBs =>
    if (h == nstr.headD 0 || nstr.headD 0 == qmark) && agrees (h :: hstr) (nstr.take nlen) then
      some 0
    else if noBs && h == backslash then none
    else (wcsnstrEx hstr nstr nlen noBs).map (· + 1)

/-- `Pattern_wcsnstr` -/
def wcsnstr (hstr nstr : List WChar) (nlen : Nat) : Option Nat := wcsnstrEx hstr nstr nlen false

/-! ### Creation -/

/-- The second loop of `Pattern_Create`.  `fuel` bounds the number of parts. -/
def createCons (towlower : WChar → WChar) (lower : Bool) :
    Nat → List WChar → List Con → List Con
  | 0, _, cons => cons
  | fuel + 1, iptr, cons =>
    let stars := (iptr.takeWhile (· = star)).length
    let startCount := (if 0 < cons.length then 1 else 0) + stars
    let iptr := iptr.drop stars
    let part := iptr.takeWhile (· ≠ star)
    let optr := if lower then part.map towlower else part
    let cons :=
      if part.length ≠ 0 then
        cons ++ [{
          hex := (wcsnstr optr patternHex 5).isSome
          noBs := startCount == 2
          -- a `USHORT`
          len := part.length % 2 ^ 16
          ptr := optr }]
      else cons
    match iptr.drop part.length with
    | [] => cons
    | _ :: iptr2 => createCons towlower lower fuel iptr2 cons

/-- `Pattern_Create`.  The string is not empty: the source would look for a star at the
tail in front of an empty one. -/
def create (towlower : WChar → WChar) (string : List WChar) (lower : Bool) (level : Nat) :
    Pattern :=
  let cons := createCons towlower lower (string.length + 1) string []
  let starAtHead := string.head? == some star
  let starAtTail := string.getLast? == some star
  let starMissing := decide (cons.length ≤ 1) && !starAtHead && !starAtTail && !cons.any (·.hex)
  { numCons := cons.length % 2 ^ 16
    starMissing := starMissing
    starAtHead := starAtHead
    starAtTail := starAtTail
    haveAQmark := starMissing && string.contains qmark
    source := string
    level := level
    cons := cons }

/-- `Pattern_Wildcards` -/
def wildcards (pat : Pattern) : Nat := if pat.numCons = 0 then 0 else pat.numCons - 1

/-- `Pattern_Exact` -/
def exact (pat : Pattern) : Bool := !pat.starAtTail

/-! ### Matching -/

/-- `Pattern_wcstol`: the number, an `int`, and what follows it. -/
def wcstol : List WChar → Nat → Nat × List WChar
  | [], result => (result, [])
  | c :: text, result =>
    if '0'.toNat ≤ c ∧ c ≤ '9'.toNat then wcstol text ((result * 10 + (c - '0'.toNat)) % 2 ^ 32)
    else (result, c :: text)

/-- The lengths that a `__hex` sequence asks for, and what follows them. -/
def hexBounds (seqptr : List WChar) : Nat × Nat × List WChar :=
  let (minLen, endptr) := wcstol seqptr 0
  if endptr ≠ [] ∧ 1 ≤ minLen ∧ minLen ≤ 255 then
    let (maxLen, endptr2) := wcstol (endptr.drop 1) 0
    if endptr2 ≠ [] ∧ minLen ≤ maxLen ∧ maxLen ≤ 255 then (minLen, maxLen, endptr2)
    else (minLen, minLen, endptr)
  else (1, 255, seqptr)

/-- The digits at the front of a string, at most `maxLen` of them. -/
def hexDigits : List WChar → Nat → Nat
  | [], _ => 0
  | _, 0 => 0
  | c :: srcptr, maxLen + 1 =>
    if ('a'.toNat ≤ c ∧ c ≤ 'f'.toNat) ∨ ('0'.toNat ≤ c ∧ c ≤ '9'.toNat) then
      hexDigits srcptr maxLen + 1
    else 0

section Match

variable (pat : Pattern) (string : List WChar)

mutual

/-- `Pattern_Match2` -/
def match2 : Nat → Nat → Nat → Option Nat
  | 0, _, _ => none
  | fuel + 1, strIndex, conIndex =>
    if conIndex < pat.numCons then
      match pat.cons[conIndex]? with
      | none => some 0
      | some con =>
        match wcsnstrEx (string.drop strIndex) con.ptr con.len con.noBs with
        | none => if con.hex then match3 fuel strIndex conIndex con.ptr else some 0
        | some off =>
          if strIndex = 0 ∧ 0 < off ∧ pat.starAtHead = false then some 0
          else
            match match2 fuel (strIndex + off + con.len) (conIndex + 1) with
            | none => none
            | some 0 => match2 fuel (strIndex + off + con.len) conIndex
            | some len => some len
    else if strIndex ≠ string.length ∧ pat.starAtTail = false then some 0
    else some (strIndex + 1)
termination_by structural fuel => fuel

/-- `Pattern_Match3` up to its first `__hex`. -/
def match3 : Nat → Nat → Nat → List WChar → Option Nat
  | 0, _, _, _ => none
  | fuel + 1, strIndex, conIndex, conptr =>
    match wcsnstr conptr patternHex 5 with
    | none => some 0
    | some conLen => restart1 fuel strIndex conIndex strIndex conptr conLen
termination_by structural fuel => fuel

/-- `Pattern_Match3` from `restart1`, with `seqptr` at `conLen` in `conptr`. -/
def restart1 : Nat → Nat → Nat → Nat → List WChar → Nat → Option Nat
  | 0, _, _, _, _, _ => none
  | fuel + 1, strIndex, conIndex, srcptr, conptr, conLen =>
    if conLen ≠ 0 ∧ string.length < strIndex + conLen then some 0
    else if conLen ≠ 0 ∧ wcsnstr (string.drop srcptr) conptr conLen ≠ some 0 then some 0
    else
      match hexBounds (conptr.drop (conLen + 5)) with
      | (minLen, maxLen, seqptr) =>
        if seqptr.take 2 ≠ [underscore, underscore] then some 0
        else
          restart2 fuel strIndex conIndex (srcptr + conLen) conptr conLen minLen maxLen
            (seqptr.drop 2)
termination_by structural fuel => fuel

/-- `Pattern_Match3` from `restart2`. -/
def restart2 : Nat → Nat → Nat → Nat → List WChar → Nat → Nat → Nat → List WChar → Option Nat
  | 0, _, _, _, _, _, _, _, _ => none
  | fuel + 1, strIndex, conIndex, srcptr, conptr, conLen, minLen, maxLen, seqptr =>
    let count := hexDigits (string.drop srcptr) maxLen
    let srcptr := srcptr + count
    if count < minLen ∨ maxLen < count then
      if conIndex ≠ 0 ∨ pat.starAtHead then
        match wcsnstr (string.drop srcptr) conptr conLen with
        | some off =>
          restart2 fuel strIndex conIndex (srcptr + off + conLen) conptr conLen minLen maxLen seqptr
        | none => some 0
      else some 0
    else
      match wcsnstr seqptr patternHex 5 with
      | some off => restart1 fuel strIndex conIndex srcptr seqptr off
      | none =>
        if seqptr.length ≠ 0 ∧
            wcsnstr (string.drop srcptr) seqptr seqptr.length ≠ some 0 then some 0
        else match2 fuel (srcptr + seqptr.length) (conIndex + 1)
termination_by structural fuel => fuel

end

/-- `Pattern_MatchX` -/
def matchX (fuel : Nat) : Option Nat :=
  if pat.starMissing then
    match pat.cons with
    | [] => some 0
    | con :: _ =>
      if pat.numCons = 0 then some 0
      else if string.length ≠ con.len then some 0
      else if pat.haveAQmark then
        if wcsnstr string con.ptr con.len ≠ some 0 then some 0 else some string.length
      else if string ≠ con.ptr.take con.len then some 0
      else some string.length
  else match2 pat string fuel 0 0

end Match

/-! ### Patterns without a hex part -/

/-- No constant part holds a `__hex` sequence, and none has an empty length. -/
def Plain (pat : Pattern) : Prop := ∀ con ∈ pat.cons, con.hex = false ∧ 0 < con.len

instance (pat : Pattern) : Decidable pat.Plain := inferInstanceAs (Decidable (∀ con ∈ pat.cons, _))

theorem match2_isSome {pat : Pattern} (hplain : pat.Plain) (string : List WChar) :
    ∀ fuel strIndex conIndex, string.length + 1 - strIndex < fuel →
      (match2 pat string fuel strIndex conIndex).isSome := by
  intro fuel
  induction fuel with
  | zero => intro _ _ h; omega
  | succ fuel ih =>
    intro strIndex conIndex hfuel
    rw [match2]
    split
    · split
      · rfl
      · rename_i con hcon
        obtain ⟨hhex, hlen⟩ := hplain con (List.mem_of_getElem? hcon)
        split
        · simp [hhex]
        rename_i off hoff
        have hlt : strIndex < string.length := by
          by_contra hge
          rw [List.drop_of_length_le (by omega), wcsnstrEx] at hoff
          cases hoff
        split
        · rfl
        have hnext := ih (strIndex + off + con.len) (conIndex + 1) (by omega)
        have hagain := ih (strIndex + off + con.len) conIndex (by omega)
        split
        · rename_i hnone
          rw [hnone] at hnext
          cases hnext
        · exact hagain
        · rfl
    · split <;> rfl

/-- **A pattern without a hex part always gives an answer.** -/
theorem matchX_isSome {pat : Pattern} (hplain : pat.Plain) {string : List WChar} {fuel : Nat}
    (hfuel : string.length + 1 < fuel) : (matchX pat string fuel).isSome := by
  unfold matchX
  split
  · split
    · rfl
    · repeat' split
      all_goals rfl
  · exact match2_isSome hplain string fuel 0 0 (by omega)

end Pattern

end Sandboxie
