import Mathlib.Data.List.DropRight
import Mathlib.Data.List.Forall2
import Sandboxie.Common.Text
import Sandboxie.Lib.Utf16

/-!
# The certificate file

`KphValidateCertificate` of `drv/verify.c` reads `Certificate.dat` line by line with
`Conf_Read_Line` of `drv/conf.c`, hashes the name and the value of each tag one after the other,
and takes what the driver knows of the certificate from the tags.  A text is the list of what
`Stream_Read_Wchar` reads from it.

Nothing in the hash tells where a name or a value ends, and what does not fit in the buffer for
UTF-8 is not hashed.  `signature_covers` is when two texts with one hash have the same tags.
-/

namespace Sandboxie.Certificate

open Text Utf16 List

inductive Status
  | success
  | endOfFile
  | bufferOverflow
  | tooManyCommands
  | invalidParameter
  | badFunctionTable
  | objectTypeMismatch
deriving DecidableEq

/-! ### Lines -/

/-- `CONF_LINE_LEN` and `CONF_MAX_LINES` -/
def confLineLen : Nat := 2000

def confMaxLines : Nat := 100000

/-- Leading control and whitespace characters are skipped: the first character behind them, what is
left, and the number of lines. -/
def skipBlank : List WChar → Nat → Except Status (WChar × List WChar × Nat)
  | [], _ => .error .endOfFile
  | ch :: rest, linenum =>
    if 32 < ch ∧ ch < 0xFE00 then .ok (ch, rest, linenum)
    else if ch = 10 then
      if confMaxLines < linenum + 1 then .error .tooManyCommands else skipBlank rest (linenum + 1)
    else skipBlank rest linenum

/-- The characters up to the newline mark: `count` of them have been stored before `ch`. -/
def readChars (count : Nat) (ch : WChar) : List WChar → List WChar × Status × List WChar
  | [] => ([ch], if count + 1 = confLineLen then .bufferOverflow else .endOfFile, [])
  | c :: rest =>
    if count + 1 = confLineLen then ([ch], .bufferOverflow, c :: rest)
    else if c = 10 ∨ c = 13 then ([ch], .success, rest)
    else
      let r := readChars (count + 1) c rest
      (ch :: r.1, r.2)

def trimEnd (s : List WChar) : List WChar := s.rdropWhile (· ≤ 32)

/-- `Conf_Read_Line`: the status, the line, what is left of the text, and the number of lines.
Each time a comment is skipped takes one of the fuel. -/
def readLine : Nat → List WChar → Nat → Option (Status × List WChar × List WChar × Nat)
  | 0, _, _ => none
  | fuel + 1, text, linenum =>
    match skipBlank text linenum with
    | .error status => some (status, [], [], linenum)
    | .ok (ch, rest, linenum) =>
      let r := readChars 0 ch rest
      let line := trimEnd r.1
      -- End of file is not reported if there is data to return.
      let status := if line ≠ [] ∧ r.2.1 = .endOfFile then .success else r.2.1
      if status = .success ∧ line.head? = some 35 then readLine fuel r.2.2 linenum
      else some (status, line, r.2.2, linenum)

def parseLine (line : List WChar) : Option (List WChar × List WChar) :=
  let line := cut line
  match line.dropWhile (· ≠ 58) with
  | [] => none
  | _ :: value =>
    let name := line.takeWhile (· ≠ 58)
    if name = [] then none
    else
      let value := value.dropWhile (· ≤ 32)
      if value = [] then none else some (trimEnd name, trimEnd value)

/-! ### Tags -/

/-- What the function calls outside: the C library, the clock of the kernel, the decoder of
signatures, and the UUID of the firmware (`g_uuid_str`). -/
structure Env where
  towlower : WChar → WChar
  /-- `_wtol` and `_wtoi` -/
  wtol : List WChar → Int
  /-- `RtlTimeFieldsToTime` for day, month and year, unless it fails -/
  timeFieldsToTime : Int → Int → Int → Option Int
  b64Decode : List WChar → List UInt8
  uuid : List WChar

structure Cert where
  type : Option (List WChar) := none
  level : Option (List WChar) := none
  options : Option (List WChar) := none
  amount : Int := 1
  key : Option (List WChar) := none
  certDate : Int := 0
  checkDate : Int := 0
  days : Int := 0
  nodeLock : Bool := false
  nodePass : Bool := false
deriving DecidableEq

structure State where
  signature : Option (List UInt8) := none
  hashed : List UInt8 := []
  cert : Cert := {}
  /-- the tags until now, but for the signature, for the reader -/
  pairs : List (List WChar × List WChar) := []
deriving DecidableEq

def lineSize : Nat := (confLineLen + 2) * 2

/-- What `RtlUnicodeToUTF8N` writes, if it fits. -/
def unicodeToUtf8 (s : List WChar) : Option (List UInt8) :=
  if (utf8 s).length ≤ lineSize then some (utf8 s) else none

/-- `MyHashData` for what was converted -/
def hashData (hashed : List UInt8) (s : List WChar) : List UInt8 :=
  match unicodeToUtf8 s with
  | some bytes => hashed ++ bytes
  | none => hashed

section Tags

variable (env : Env)

/-- `KphParseDate`: the date after it, if the text has two dots. -/
def parseDate (s : List WChar) (date : Int) : Option Int :=
  let cshort (n : Int) : Int := n.bmod (2 ^ 16)
  let day := s.dropWhile (· = 32)
  match day.dropWhile (· ≠ 46) with
  | [] => none
  | _ :: month =>
    match month.dropWhile (· ≠ 46) with
    | [] => none
    | _ :: year =>
      let time := env.timeFieldsToTime (cshort (env.wtol day)) (cshort (env.wtol month))
        (cshort (env.wtol year))
      some (time.getD date)

/-- `DD.MM.YYYY [+Days] / DD.MM.YYYY` -/
def readDate (value : List WChar) (c : Cert) : Cert :=
  match parseDate env value c.certDate with
  | none => c
  | some date =>
    let days := match value.dropWhile (· ≠ 43) with
      | [] => c.days
      | ptr => env.wtol ptr
    let checkDate := match value.dropWhile (· ≠ 47) with
      | [] => c.checkDate
      | _ :: ptr => (parseDate env ptr c.checkDate).getD c.checkDate
    { c with certDate := date, days := days, checkDate := checkDate }

/-- `TYPE-LEVEL` -/
def readType (value : List WChar) (c : Cert) : Cert :=
  match value.dropWhile (· ≠ 45) with
  | [] => { c with type := some value }
  | _ :: level => { c with type := some (value.takeWhile (· ≠ 45)), level := some level }

def interpret (c : Cert) (name value : List WChar) : Except Status Cert :=
  let tagged (tag : String) : Bool := sameNoCase env.towlower (wide tag.toList) name
  if tagged "DATE" then
    if c.certDate ≠ 0 then .error .badFunctionTable else .ok (readDate env value c)
  else if tagged "DAYS" then
    if c.days ≠ 0 then .error .badFunctionTable else .ok { c with days := env.wtol value }
  else if tagged "TYPE" then
    if c.type ≠ none then .error .badFunctionTable else .ok (readType value c)
  else if tagged "LEVEL" then
    if c.level ≠ none then .error .badFunctionTable else .ok { c with level := some value }
  else if tagged "OPTIONS" then
    if c.options ≠ none then .error .badFunctionTable else .ok { c with options := some value }
  else if tagged "UPDATEKEY" then
    if c.key ≠ none then .error .badFunctionTable else .ok { c with key := some value }
  else if tagged "AMOUNT" then .ok { c with amount := env.wtol value }
  else if tagged "SOFTWARE" then
    if sameNoCase env.towlower value (wide "Sandboxie-Plus".toList) then .ok c
    else .error .objectTypeMismatch
  else if tagged "HWID" then
    .ok { c with
      nodeLock := true
      nodePass := c.nodePass || sameNoCase env.towlower value env.uuid }
  else .ok c

/-- One tag: the first signature is kept, the others are hashed and then interpreted. -/
def readTag (s : State) (name value : List WChar) : Except Status State :=
  if sameNoCase env.towlower (wide "SIGNATURE".toList) name ∧ s.signature = none then
    .ok { s with signature := some (env.b64Decode value) }
  else
    match interpret env s.cert name value with
    | .error status => .error status
    | .ok cert => .ok { s with
        hashed := hashData (hashData s.hashed name) value
        cert := cert
        pairs := s.pairs ++ [(name, value)] }

/-- The loop over the lines: the status that ends it, and the state. -/
def readTags : Nat → List WChar → Nat → State → Option (Status × State)
  | 0, _, _, _ => none
  | fuel + 1, text, linenum, s =>
    match readLine (text.length + 1) text linenum with
    | none => none
    | some (status, line, rest, linenum) =>
      if status ≠ .success then some (status, s)
      else
        match parseLine line with
        | none => some (.invalidParameter, s)
        | some (name, value) =>
          match readTag env s name value with
          | .error status => some (status, s)
          | .ok s => readTags fuel rest linenum s

def ReadsToEnd (text : List WChar) (s : State) : Prop :=
  readTags env (text.length + 1) text 0 {} = some (.endOfFile, s)

end Tags

/-! ### The loops end -/

variable {text : List WChar} {linenum : Nat}

theorem skipBlank_length {rest : List WChar} {linenum' : Nat} {ch : WChar}
    (h : skipBlank text linenum = .ok (ch, rest, linenum')) : rest.length < text.length := by
  induction text generalizing linenum with
  | nil => exact (nomatch h)
  | cons c text ih =>
    rw [skipBlank] at h
    split_ifs at h with hfirst hnewline hmany
    · have hrest : text = rest := (Prod.mk.inj (Prod.mk.inj (Except.ok.inj h)).2).1
      rw [← hrest]
      exact Nat.lt_succ_self _
    · exact (ih h).trans (Nat.lt_succ_self _)
    · exact (ih h).trans (Nat.lt_succ_self _)

theorem readChars_length (count : Nat) (ch : WChar) (text : List WChar) :
    (readChars count ch text).2.2.length ≤ text.length := by
  induction text generalizing count ch with
  | nil => exact le_rfl
  | cons c rest ih =>
    rw [readChars]
    split_ifs
    · exact le_rfl
    · exact Nat.le_succ _
    · exact (ih (count + 1) c).trans (Nat.le_succ _)

theorem skipBlank_error {status : Status}
    (h : skipBlank text linenum = .error status) : status ≠ .success := by
  induction text generalizing linenum with
  | nil => exact Except.error.inj h ▸ Status.noConfusion
  | cons c text ih =>
    rw [skipBlank] at h
    split_ifs at h with hfirst hnewline hmany
    · exact Except.error.inj h ▸ Status.noConfusion
    · exact ih h
    · exact ih h

theorem readLine_some {fuel : Nat} (linenum : Nat) (h : text.length < fuel) :
    ∃ status line rest linenum', readLine fuel text linenum = some (status, line, rest, linenum') ∧
      (status = .success → rest.length < text.length) := by
  induction fuel generalizing text linenum with
  | zero => exact absurd h (Nat.not_lt_zero _)
  | succ fuel ih =>
    rw [readLine]
    cases hskip : skipBlank text linenum with
    | error status => exact ⟨status, [], [],
      linenum, rfl, fun heq => absurd heq (skipBlank_error hskip)⟩
    | ok r =>
      obtain ⟨ch, rest, linenum'⟩ := r
      have hlen := (readChars_length 0 ch rest).trans_lt (skipBlank_length hskip)
      simp only
      generalize (if trimEnd (readChars 0 ch rest).1 ≠ [] ∧ (readChars 0 ch rest).2.1 = .endOfFile
        then Status.success else (readChars 0 ch rest).2.1) = status
      by_cases hcomment : status = .success ∧ (trimEnd (readChars 0 ch rest).1).head? = some 35
      · rw [if_pos hcomment]
        obtain ⟨status', line, rest', linenum'', heq, hless⟩ :=
          ih linenum' (hlen.trans_le (Nat.le_of_lt_succ h))
        exact ⟨status', line, rest', linenum'', heq, fun hs => (hless hs).trans hlen⟩
      · rw [if_neg hcomment]
        exact ⟨_, _, _, _, rfl, fun _ => hlen⟩

theorem readTags_isSome (env : Env) {fuel : Nat} (linenum : Nat) (s : State)
    (h : text.length < fuel) : ∃ r, readTags env fuel text linenum s = some r := by
  induction fuel generalizing text linenum s with
  | zero => exact absurd h (Nat.not_lt_zero _)
  | succ fuel ih =>
    obtain ⟨status, line, rest, linenum', hline, hless⟩ :=
      readLine_some linenum (Nat.lt_succ_self text.length)
    rw [readTags, hline]
    simp only
    by_cases hstatus : status = .success
    · rw [if_neg (not_not_intro hstatus)]
      cases parseLine line with
      | none => exact ⟨_, rfl⟩
      | some tag =>
        cases htag : readTag env s tag.1 tag.2 with
        | error status =>
          simp only [htag]
          exact ⟨_, rfl⟩
        | ok s' =>
          simp only [htag]
          exact ih linenum' s' ((hless hstatus).trans_le (Nat.le_of_lt_succ h))
    · rw [if_pos hstatus]
      exact ⟨_, rfl⟩

/-! ### The hash -/

def converted (s : List WChar) : List UInt8 := (unicodeToUtf8 s).getD []

theorem hashData_eq (hashed : List UInt8) (s : List WChar) :
    hashData hashed s = hashed ++ converted s := by
  unfold hashData converted
  cases unicodeToUtf8 s with
  | none => exact (append_nil hashed).symm
  | some bytes => rfl

def hashStream (pairs : List (List WChar × List WChar)) : List UInt8 :=
  pairs.flatMap fun p => converted p.1 ++ converted p.2

theorem readTag_hashed {env : Env} {s s' : State} {name value : List WChar}
    (h : readTag env s name value = .ok s') (hs : s.hashed = hashStream s.pairs) :
    s'.hashed = hashStream s'.pairs := by
  unfold readTag at h
  split_ifs at h with hsignature
  · rw [← Except.ok.inj h]
    exact hs
  cases hcert : interpret env s.cert name value with
  | error status =>
    rw [hcert] at h
    exact (nomatch h)
  | ok cert =>
    rw [hcert] at h
    rw [← Except.ok.inj h]
    show hashData (hashData s.hashed name) value = hashStream (s.pairs ++ [(name, value)])
    unfold hashStream
    rw [hashData_eq, hashData_eq, hs, flatMap_append, append_assoc]
    exact congrArg _ (append_nil _).symm

theorem readTags_hashed {env : Env} {fuel : Nat} {s s' : State} {status : Status}
    (h : readTags env fuel text linenum s = some (status, s'))
    (hs : s.hashed = hashStream s.pairs) : s'.hashed = hashStream s'.pairs := by
  induction fuel generalizing text linenum s with
  | zero => exact (nomatch h)
  | succ fuel ih =>
    rw [readTags] at h
    cases hline : readLine (text.length + 1) text linenum with
    | none =>
      rw [hline] at h
      exact (nomatch h)
    | some r =>
      obtain ⟨status', line, rest, linenum'⟩ := r
      rw [hline] at h
      simp only at h
      by_cases hstatus : status' = .success
      · rw [if_neg (not_not_intro hstatus)] at h
        cases hparse : parseLine line with
        | none =>
          rw [hparse] at h
          exact (Prod.mk.inj (Option.some.inj h)).2 ▸ hs
        | some tag =>
          rw [hparse] at h
          cases htag : readTag env s tag.1 tag.2 with
          | error status'' =>
            simp only [htag] at h
            exact (Prod.mk.inj (Option.some.inj h)).2 ▸ hs
          | ok s₁ =>
            simp only [htag] at h
            exact ih h (readTag_hashed htag hs)
      · rw [if_pos hstatus] at h
        exact (Prod.mk.inj (Option.some.inj h)).2 ▸ hs

/-! ### What the hash tells -/

/-- All of the text is hashed, and its bytes tell what it is. -/
def Faithful (s : List WChar) : Prop := WellFormed s ∧ (utf8 s).length ≤ lineSize

/-- Two texts have the same number of hashed bytes, and are the same if the bytes of one do not
tell what it is. -/
def Alike (s t : List WChar) : Prop :=
  (converted s).length = (converted t).length ∧ (Faithful s ∧ Faithful t ∨ s = t)

/-- The tags are alike one by one. -/
def Aligned (pairs pairs' : List (List WChar × List WChar)) : Prop :=
  List.Forall₂ (fun p q => Alike p.1 q.1 ∧ Alike p.2 q.2) pairs pairs'

theorem converted_of_faithful {s : List WChar} (h : Faithful s) : converted s = utf8 s := by
  unfold converted unicodeToUtf8
  rw [if_pos h.2]
  rfl

theorem Alike.eq {s t : List WChar} (h : Alike s t) (heq : converted s = converted t) : s = t := by
  rcases h.2 with ⟨hs, ht⟩ | hst
  · rw [converted_of_faithful hs, converted_of_faithful ht] at heq
    exact utf8_injective hs.1 ht.1 heq
  · exact hst

theorem alike_refl (s : List WChar) : Alike s s := ⟨rfl, Or.inr rfl⟩

theorem eq_of_aligned {pairs pairs' : List (List WChar × List WChar)} (h : Aligned pairs pairs')
    (heq : hashStream pairs = hashStream pairs') : pairs = pairs' := by
  induction h with
  | nil => rfl
  | @cons p q pairs pairs' hpq _ ih =>
    unfold hashStream at heq
    rw [flatMap_cons, flatMap_cons, append_assoc, append_assoc] at heq
    obtain ⟨hname, hrest⟩ := append_inj heq hpq.1.1
    obtain ⟨hvalue, hrest⟩ := append_inj hrest hpq.2.1
    rw [Prod.ext (hpq.1.eq hname) (hpq.2.eq hvalue), ih hrest]

/-- **The signature covers the tags of two texts with one hash when they are split alike.** -/
theorem signature_covers (env : Env) (text text' : List WChar) (s s' : State)
    (h : ReadsToEnd env text s) (h' : ReadsToEnd env text' s') (heq : s.hashed = s'.hashed) :
    s.pairs = s'.pairs ↔ Aligned s.pairs s'.pairs := by
  refine ⟨fun hpairs => ?_, fun haligned => ?_⟩
  · rw [hpairs]
    exact forall₂_same.mpr fun p _ => ⟨alike_refl p.1, alike_refl p.2⟩
  · rw [readTags_hashed h rfl, readTags_hashed h' rfl] at heq
    exact eq_of_aligned haligned heq

/-- ASCII letters, and nothing else that is called outside. -/
def plainEnv : Env where
  towlower := asciiLower
  wtol := fun _ => 0
  timeFieldsToTime := fun _ _ _ => none
  b64Decode := fun _ => []
  uuid := []

/-- A comment and blanks are not hashed, and do not matter. -/
theorem signature_covers_comment : ∃ s s',
    ReadsToEnd plainEnv (wide "A: B".toList) s ∧
      ReadsToEnd plainEnv (wide "# C\nA :B ".toList) s' ∧
        (s.pairs = s'.pairs ↔ Aligned s.pairs s'.pairs) := by
  have h : ReadsToEnd plainEnv (wide "A: B".toList)
      { hashed := [65, 66], pairs := [([65], [66])] } := by
    unfold ReadsToEnd
    decide +kernel
  have h' : ReadsToEnd plainEnv (wide "# C\nA :B ".toList)
      { hashed := [65, 66], pairs := [([65], [66])] } := by
    unfold ReadsToEnd
    decide +kernel
  exact ⟨_, _, h, h', signature_covers plainEnv _ _ _ _ h h' rfl⟩

/-- The end of a name becomes the tag `TYPE`. -/
theorem split_again : ¬∀ (env : Env) (text text' : List WChar) (s s' : State),
    ReadsToEnd env text s → ReadsToEnd env text' s' → s.hashed = s'.hashed →
      s.pairs = s'.pairs := by
  intro hall
  have h : ReadsToEnd plainEnv (wide "NAME: ATYPE\nB: C".toList)
      { hashed := (wide "NAMEATYPEBC".toList).map UInt8.ofNat
        pairs := [(wide "NAME".toList, wide "ATYPE".toList), ([66], [67])] } := by
    unfold ReadsToEnd
    decide +kernel
  have h' : ReadsToEnd plainEnv (wide "NAME: A\nTYPE: BC".toList)
      { hashed := (wide "NAMEATYPEBC".toList).map UInt8.ofNat
        cert := { type := some [66, 67] }
        pairs := [(wide "NAME".toList, [65]), (wide "TYPE".toList, [66, 67])] } := by
    unfold ReadsToEnd
    decide +kernel
  exact absurd (hall plainEnv _ _ _ _ h h' rfl) (by decide)

end Sandboxie.Certificate
