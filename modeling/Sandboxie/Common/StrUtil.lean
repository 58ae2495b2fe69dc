import Mathlib.Data.List.TakeWhile
import Mathlib.Tactic.Common
import Sandboxie.Common.Text

/-!
# Tag values

The text helpers of `common/str_util.c`, which a setting such as
`explorer.exe,Allow;Port=137,138;Protocol=TCP` is taken apart with.  They walk over one text with
pointers: a pointer is an index here, the null pointer is `none`, and what a pointer may not do
is a `Fault`.
-/

namespace Sandboxie.StrUtil

open List

/-- What a walk over a text may do wrong. -/
inductive Fault
  /-- a null pointer is read through -/
  | null
  /-- a read outside of what is read -/
  | read
  /-- a write outside of what is written -/
  | write
  /-- a loop that does not end -/
  | hang
deriving DecidableEq, Repr

structure CText where
  chars : List WChar
  noNul : 0 ∉ chars
  short : chars.length < 2 ^ 31

/-- The difference of two pointers as a `ULONG`. -/
def ulongSub (a b : Nat) : Nat := if b ≤ a then a - b else 2 ^ 32 - (b - a)

/-- `"` -/
abbrev dquote : WChar := '"'.toNat
/-- `'` -/
abbrev squote : WChar := '\''.toNat
/-- `;` -/
abbrev semicolon : WChar := ';'.toNat
/-- `,` -/
abbrev comma : WChar := ','.toNat
/-- `=` -/
abbrev equals : WChar := '='.toNat

/-- What `Config_SkipWhiteSpace` skips. -/
def isBlank (c : WChar) : Bool :=
  c == ' '.toNat || c == '\r'.toNat || c == '\n'.toNat || c == '\t'.toNat

/-- What `Config_TrimWhiteSpace` takes off: not the line feed. -/
def isTrimmed (c : WChar) : Bool := c == ' '.toNat || c == '\r'.toNat || c == '\t'.toNat

variable (t : CText)

def charAt (p : Nat) : Except Fault WChar :=
  if p ≤ t.chars.length then .ok ((t.chars ++ [0]).getD p 0) else .error .read

/-- `wcschr`, which may look for the terminator. -/
def wcschr (p : Nat) (c : WChar) : Except Fault (Option Nat) :=
  if p ≤ t.chars.length then
    .ok ((((t.chars ++ [0]).drop p).findIdx? (· == c)).map (p + ·))
  else .error .read

/-- `wcsnchr` of `common/netfw.c`, which does not look at the terminator. -/
def wcsnchr (p max : Nat) (c : WChar) : Except Fault (Option Nat) :=
  if p ≤ t.chars.length then
    .ok ((((t.chars.drop p).take max).findIdx? (· == c)).map (p + ·))
  else .error .read

/-- `Config_SkipWhiteSpace` -/
def skipWhiteSpace (p : Nat) : Except Fault Nat :=
  if p ≤ t.chars.length then .ok (p + ((t.chars.drop p).takeWhile isBlank).length)
  else .error .read

/-- `Config_TrimWhiteSpace` -/
def trimWhiteSpace (p : Nat) : Nat → Except Fault Nat
  | 0 => .ok 0
  | len + 1 =>
    match charAt t (p + len) with
    | .error e => .error e
    | .ok c => if isTrimmed c then trimWhiteSpace p len else .ok (len + 1)

/-- What `SbieDll_GetTagValue` gives: the value, its length and what follows the separator. -/
structure TagValue where
  value : Option Nat
  len : Nat
  next : Option Nat
deriving DecidableEq, Repr

/-- The end of a value: the separator, if it stands in front of `strEnd`, or the end. -/
def separator (p : Nat) (strEnd : Option Nat) (sep : WChar) : Except Fault Nat :=
  match wcschr t p sep with
  | .error e => .error e
  | .ok tmp =>
    match strEnd with
    | some strEnd => .ok (tmp.elim strEnd fun tmp => if strEnd < tmp then strEnd else tmp)
    | none => .ok (tmp.getD t.chars.length)

/-- The last step of `SbieDll_GetTagValue` goes over the separator. -/
def skipSeparator (tmp : Nat) (strEnd : Option Nat) : Except Fault Nat :=
  match charAt t tmp with
  | .error e => .error e
  | .ok c => .ok (if c ≠ 0 ∧ strEnd.all (tmp < ·) then tmp + 1 else tmp)

/-- `SbieDll_GetTagValue` -/
def getTagValue (str : Nat) (strEnd : Option Nat) (sep : WChar) : Except Fault TagValue := do
  let str ← skipWhiteSpace t str
  let c ← charAt t str
  if c = dquote ∨ c = squote then
    match ← wcschr t (str + 1) c with
    | none => return ⟨none, 0, none⟩
    | some fin =>
      let tmp ← separator t (fin + 1) strEnd sep
      let tmp ← skipSeparator t tmp strEnd
      return ⟨some (str + 1), fin - (str + 1), some tmp⟩
  else
    let tmp ← separator t str strEnd sep
    let len ← trimWhiteSpace t str (ulongSub tmp str)
    let tmp ← skipSeparator t tmp strEnd
    return ⟨some str, len, some tmp⟩

/-- `SbieDll_EnumTagValues`; `enumProc` is called with the name, its length, the value and its
length, and says whether to go on. -/
def enumTagValues {σ : Type} (enumProc : Nat → Nat → Option Nat → Nat → σ → σ × Bool)
    (eq sep : WChar) : Nat → Nat → σ → Except Fault σ
  | 0, _, _ => .error .hang
  | fuel + 1, str_ptr, param => do
    if (← charAt t str_ptr) = 0 then return param
    let str_ptr ← skipWhiteSpace t str_ptr
    match ← wcschr t str_ptr eq with
    | none => return param
    | some tmp =>
      let len ← trimWhiteSpace t str_ptr (tmp - str_ptr)
      let found ← getTagValue t (tmp + 1) none sep
      match found.next with
      | none => return param
      | some next =>
        let (param, more) := enumProc str_ptr len found.value found.len param
        if more then enumTagValues enumProc eq sep fuel next param else return param

/-- `_wcsnicmp` finds no difference in `n` characters of the text and of a constant. -/
def sameN (towlower : WChar → WChar) (p : Nat) (s : List WChar) (n : Nat) : Bool :=
  Text.sameNoCase towlower ((t.chars.drop p).take n) (s.take n)

/-- `Config_TagFindProc` -/
def tagFindProc (towlower : WChar → WChar) (tag_name : List WChar) (name name_len : Nat)
    (value : Option Nat) (value_len : Nat) (found : Option Nat × Nat) :
    (Option Nat × Nat) × Bool :=
  if tag_name.length = name_len ∧ sameN t towlower name tag_name name_len then
    ((value, value_len), false)
  else (found, true)

/-- `SbieDll_FindTagValuePtr` -/
def findTagValuePtr (towlower : WChar → WChar) (string : Option Nat) (tag_name : List WChar)
    (eq sep : WChar) : Except Fault (Option (Nat × Nat)) :=
  match string with
  | none => .ok none
  | some string => do
    let found ← enumTagValues t (tagFindProc t towlower tag_name) eq sep
      (t.chars.length + 1) string (none, 0)
    return found.1.map fun value => (value, found.2)

/-! ### What the helpers give -/

section Helpers

variable {t : CText} {p : Nat}

@[simp] theorem ulongSub_of_le {a b : Nat} (h : b ≤ a) : ulongSub a b = a - b := if_pos h

theorem ok_bind {α β : Type} (a : α) (f : α → Except Fault β) : (Except.ok a >>= f) = f a := rfl

theorem error_bind {α β : Type} (e : Fault) (f : α → Except Fault β) :
    (Except.error e >>= f) = Except.error e := rfl

theorem bind_ok {α β : Type} {x : Except Fault α} {f : α → Except Fault β} {b : β}
    (h : (x >>= f) = .ok b) : ∃ a, x = .ok a ∧ f a = .ok b := by
  cases x with
  | error e => exact nomatch h
  | ok a => exact ⟨a, rfl, h⟩

theorem charAt_ok (h : p ≤ t.chars.length) : ∃ c, charAt t p = .ok c := ⟨_, if_pos h⟩

theorem charAt_error (h : t.chars.length < p) : charAt t p = .error .read :=
  if_neg (Nat.not_le_of_lt h)

theorem le_of_charAt {c : WChar} (h : charAt t p = .ok c) : p ≤ t.chars.length := by
  by_contra hlt
  rw [charAt_error (Nat.lt_of_not_le hlt)] at h
  exact nomatch h

theorem charAt_length : charAt t t.chars.length = .ok 0 := by
  rw [charAt, if_pos le_rfl]
  simp

theorem charAt_lt {c : WChar} (h : charAt t p = .ok c) (hc : c ≠ 0) : p < t.chars.length := by
  refine lt_of_le_of_ne (le_of_charAt h) ?_
  rintro rfl
  rw [charAt_length] at h
  exact hc (Except.ok.inj h).symm

theorem wcschr_ok (hp : p ≤ t.chars.length) (c : WChar) : wcschr t p c = .ok none ∨
    ∃ q, wcschr t p c = .ok (some q) ∧ p ≤ q ∧ charAt t q = .ok c := by
  rw [wcschr, if_pos hp]
  cases hfind : ((t.chars ++ [0]).drop p).findIdx? (· == c) with
  | none => exact .inl rfl
  | some k =>
    refine .inr ⟨p + k, rfl, Nat.le_add_right _ _, ?_⟩
    obtain ⟨hk, hck, -⟩ := findIdx?_eq_some_iff_getElem.mp hfind
    rw [length_drop, length_append, length_singleton] at hk
    rw [getElem_drop, beq_iff_eq] at hck
    have hle : p + k ≤ t.chars.length := by omega
    rw [charAt, if_pos hle, getD_eq_getElem?_getD, getElem?_eq_getElem (by simp; omega),
      Option.getD_some, hck]

theorem skipWhiteSpace_ok (hp : p ≤ t.chars.length) :
    ∃ s, skipWhiteSpace t p = .ok s ∧ p ≤ s ∧ s ≤ t.chars.length := by
  refine ⟨_, if_pos hp, Nat.le_add_right _ _, ?_⟩
  have hlen := ( takeWhile_prefix isBlank (l := t.chars.drop p)).length_le
  rw [length_drop] at hlen
  omega

theorem trimWhiteSpace_ok : ∀ {len : Nat}, p + len ≤ t.chars.length + 1 →
    ∃ len', trimWhiteSpace t p len = .ok len' ∧ len' ≤ len ∧
      (len' < len → ∃ c, charAt t (p + len') = .ok c ∧ isTrimmed c = true) := by
  intro len
  induction len with
  | zero => exact fun _ => ⟨0, rfl, le_rfl, nofun⟩
  | succ len ih =>
    intro h
    obtain ⟨c, hc⟩ := charAt_ok (t := t) (p := p + len) (by omega)
    rw [trimWhiteSpace, hc]
    dsimp only
    by_cases htrim : isTrimmed c = true
    · rw [if_pos htrim]
      obtain ⟨len', hlen', hle, hmore⟩ := ih (by omega)
      refine ⟨len', hlen', Nat.le_succ_of_le hle, fun _ => ?_⟩
      rcases Nat.lt_or_eq_of_le hle with hlt | rfl
      · exact hmore hlt
      · exact ⟨c, hc, htrim⟩
    · rw [if_neg htrim]
      exact ⟨len + 1, rfl, le_rfl, fun h => absurd h (lt_irrefl _)⟩

theorem trimWhiteSpace_error {len : Nat} (h : t.chars.length + 1 < p + len) (hlen : 0 < len) :
    trimWhiteSpace t p len = .error .read := by
  obtain ⟨len, rfl⟩ := Nat.exists_eq_succ_of_ne_zero hlen.ne'
  rw [trimWhiteSpace, charAt_error (by omega)]

variable {strEnd : Option Nat} {sep : WChar}

theorem separator_ok (hp : p ≤ t.chars.length) (hend : ∀ e ∈ strEnd, e ≤ t.chars.length)
    (hsep : sep ≠ 0) : ∃ tmp, separator t p strEnd sep = .ok tmp ∧ tmp ≤ t.chars.length ∧
      ((p ≤ tmp ∧ charAt t tmp = .ok sep ∧ strEnd.all (tmp ≤ ·) = true) ∨
        tmp = strEnd.getD t.chars.length) := by
  rw [separator]
  rcases wcschr_ok hp sep with hnone | ⟨q, hq, hpq, hcq⟩
  · rw [hnone]
    cases strEnd with
    | none => exact ⟨t.chars.length, rfl, le_rfl, .inr rfl⟩
    | some e => exact ⟨e, rfl, hend e rfl, .inr rfl⟩
  · rw [hq]
    have hlt := charAt_lt hcq hsep
    cases strEnd with
    | none => exact ⟨q, rfl, hlt.le, .inl ⟨hpq, hcq, rfl⟩⟩
    | some e =>
      by_cases he : e < q
      · exact ⟨e, congrArg Except.ok (if_pos he), hend e rfl, .inr rfl⟩
      · refine ⟨q, congrArg Except.ok (if_neg he), hlt.le, .inl ⟨hpq, hcq, ?_⟩⟩
        exact decide_eq_true (Nat.not_lt.mp he)

theorem skipSeparator_ok {tmp : Nat} (htmp : tmp ≤ t.chars.length) :
    ∃ q, skipSeparator t tmp strEnd = .ok q ∧
      (q = tmp ∧ (charAt t tmp = .ok 0 ∨ strEnd.all (tmp < ·) = false) ∨
        q = tmp + 1 ∧ tmp < t.chars.length ∧ strEnd.all (tmp < ·) = true) := by
  obtain ⟨c, hc⟩ := charAt_ok htmp
  rw [skipSeparator, hc]
  by_cases hskip : c ≠ 0 ∧ strEnd.all (tmp < ·) = true
  · exact ⟨tmp + 1, congrArg Except.ok (if_pos hskip), .inr ⟨rfl, charAt_lt hc hskip.1, hskip.2⟩⟩
  · refine ⟨tmp, congrArg Except.ok (if_neg hskip), .inl ⟨rfl, ?_⟩⟩
    by_cases hzero : c = 0
    · exact .inl (congrArg Except.ok hzero)
    · exact .inr (Bool.eq_false_iff.mpr fun h => hskip ⟨hzero, h⟩)

/-- A value that `SbieDll_GetTagValue` found between `p` and `strEnd`, and what follows it. -/
structure Inside (t : CText) (p : Nat) (strEnd : Option Nat) (sep : WChar) (v len q : Nat) :
    Prop where
  start : p ≤ v
  value : v + len ≤ t.chars.length
  next : q ≤ t.chars.length
  progress : p < q ∨ q = strEnd.getD t.chars.length
  stop : v + len < q → ∃ c, charAt t (v + len) = .ok c ∧
    (c = sep ∨ isTrimmed c = true ∨ c = dquote ∨ c = squote)

/-- **A value lies inside of the text,** unless a quotation is not closed or the white space in
front of the value goes over the end. -/
theorem getTagValue_cases (hp : p ≤ t.chars.length) (hend : ∀ e ∈ strEnd, e ≤ t.chars.length)
    (hsep : sep ≠ 0) : getTagValue t p strEnd sep = .ok ⟨none, 0, none⟩ ∨
      (∃ v len q, getTagValue t p strEnd sep = .ok ⟨some v, len, some q⟩ ∧
        Inside t p strEnd sep v len q) ∨
      (getTagValue t p strEnd sep = .error .read ∧ strEnd ≠ none) := by
  obtain ⟨s, hs, hps, hslen⟩ := skipWhiteSpace_ok hp
  obtain ⟨c, hc⟩ := charAt_ok hslen
  rw [getTagValue, hs, ok_bind, hc, ok_bind]
  by_cases hquote : c = dquote ∨ c = squote
  · rw [if_pos hquote]
    have hc0 : c ≠ 0 := by rcases hquote with rfl | rfl <;> decide
    have hslt := charAt_lt hc hc0
    rcases wcschr_ok hslt c with hnone | ⟨fin, hfin, hsfin, hcfin⟩
    · rw [hnone, ok_bind]
      exact .inl rfl
    rw [hfin, ok_bind]
    have hfinlt := charAt_lt hcfin hc0
    obtain ⟨tmp, htmp, htmple, hwhere⟩ := separator_ok hfinlt hend hsep
    obtain ⟨q, hq, hcases⟩ := skipSeparator_ok htmple
    refine .inr (.inl ⟨s + 1, fin - (s + 1), q, ?_, ?_⟩)
    · dsimp only
      rw [htmp, ok_bind, hq, ok_bind]
      rfl
    have hqtmp : tmp ≤ q := by rcases hcases with ⟨rfl, -⟩ | ⟨rfl, -⟩ <;> omega
    refine ⟨Nat.le_succ_of_le hps, by omega, ?_, ?_, fun _ => ⟨c, ?_, .inr (.inr hquote)⟩⟩
    · rcases hcases with ⟨rfl, -⟩ | ⟨rfl, hlt, -⟩
      · exact htmple
      · exact hlt
    · rcases hwhere with ⟨hge, -, -⟩ | heq
      · exact .inl (by omega)
      · rcases hcases with ⟨rfl, -⟩ | ⟨-, hlt, hall⟩
        · exact .inr heq
        · cases strEnd with
          | none => exact absurd heq hlt.ne
          | some e => exact absurd heq (of_decide_eq_true hall).ne
    · rw [show s + 1 + (fin - (s + 1)) = fin by omega]
      exact hcfin
  · rw [if_neg hquote]
    obtain ⟨tmp, htmp, htmple, hwhere⟩ := separator_ok hslen hend hsep
    obtain ⟨q, hq, hcases⟩ := skipSeparator_ok htmple
    rw [htmp, ok_bind]
    by_cases hle : s ≤ tmp
    · rw [ulongSub_of_le hle]
      have hroom : s + (tmp - s) ≤ t.chars.length + 1 := by omega
      obtain ⟨len, hlen, hlenle, htrim⟩ := trimWhiteSpace_ok hroom
      refine .inr (.inl ⟨s, len, q, ?_, ?_⟩)
      · rw [hlen, ok_bind, hq, ok_bind]
        rfl
      refine ⟨hps, by omega, ?_, ?_, fun hlt => ?_⟩
      · rcases hcases with ⟨rfl, -⟩ | ⟨rfl, hlt, -⟩
        · exact htmple
        · exact hlt
      · rcases hcases with ⟨rfl, hnot⟩ | ⟨rfl, -, -⟩
        · rcases hwhere with ⟨-, hsepc, hall⟩ | heq
          · rcases hnot with hzero | hnlt
            · rw [hsepc] at hzero
              exact absurd (Except.ok.inj hzero) hsep
            · cases strEnd with
              | none => exact nomatch hnlt
              | some e =>
                have hnlt : ¬ q < e := of_decide_eq_false hnlt
                have hle : q ≤ e := of_decide_eq_true hall
                exact .inr (le_antisymm hle (Nat.not_lt.mp hnlt))
          · exact .inr heq
        · exact .inl (by omega)
      · rcases Nat.lt_or_eq_of_le hlenle with hshort | heq
        · obtain ⟨c', hc', htrimmed⟩ := htrim hshort
          exact ⟨c', hc', .inr (.inl htrimmed)⟩
        · have htmpeq : s + len = tmp := by omega
          rw [htmpeq] at hlt ⊢
          rcases hcases with ⟨rfl, -⟩ | ⟨rfl, htlt, hall⟩
          · exact absurd hlt (lt_irrefl _)
          · rcases hwhere with ⟨-, hsepc, -⟩ | hout
            · exact ⟨sep, hsepc, .inl rfl⟩
            · cases strEnd with
              | none => exact absurd hout htlt.ne
              | some e => exact absurd hout (of_decide_eq_true hall).ne
    · have hwrap : ulongSub tmp s = 2 ^ 32 - (s - tmp) := if_neg hle
      have hshort := t.short
      rw [hwrap, trimWhiteSpace_error (by omega) (by omega), error_bind]
      refine .inr (.inr ⟨rfl, ?_⟩)
      rintro rfl
      rcases hwhere with ⟨hge, -, -⟩ | heq
      · exact hle hge
      · exact hle (heq ▸ hslen)

/-! ### Looking for a tag -/

/-- **`SbieDll_EnumTagValues` stays inside of the text and ends,** and what `enumProc` keeps true
for values inside of the text is true in the end. -/
theorem enumTagValues_ok {σ : Type} {P : σ → Prop}
    {enumProc : Nat → Nat → Option Nat → Nat → σ → σ × Bool} {eq sep : WChar} (heq : eq ≠ 0)
    (hsep : sep ≠ 0) (hproc : ∀ name name_len v len param, v + len ≤ t.chars.length → P param →
      P (enumProc name name_len (some v) len param).1) :
    ∀ fuel p param, t.chars.length < p + fuel → p ≤ t.chars.length → P param →
      ∃ param', enumTagValues t enumProc eq sep fuel p param = .ok param' ∧ P param' := by
  intro fuel
  induction fuel with
  | zero => exact fun p _ h hp => absurd h (Nat.not_lt.mpr hp)
  | succ fuel ih =>
    intro p param hfuel hp hP
    obtain ⟨c, hc⟩ := charAt_ok hp
    rw [enumTagValues, hc, ok_bind]
    by_cases hzero : c = 0
    · rw [if_pos hzero]
      exact ⟨param, rfl, hP⟩
    rw [if_neg hzero]
    obtain ⟨s, hs, hps, hslen⟩ := skipWhiteSpace_ok hp
    rw [hs, ok_bind]
    rcases wcschr_ok hslen eq with hnone | ⟨tmp, htmp, hstmp, hctmp⟩
    · rw [hnone, ok_bind]
      exact ⟨param, rfl, hP⟩
    rw [htmp, ok_bind]
    have hlt := charAt_lt hctmp heq
    have hroom : s + (tmp - s) ≤ t.chars.length + 1 := by omega
    obtain ⟨len, hlen, -⟩ := trimWhiteSpace_ok hroom
    dsimp only
    rw [hlen, ok_bind]
    have hnone : ∀ e ∈ (none : Option Nat), e ≤ t.chars.length := nofun
    have htmplt : tmp + 1 ≤ t.chars.length := hlt
    rcases getTagValue_cases htmplt hnone hsep with
      hnull | ⟨v, vlen, q, hget, hinside⟩ | ⟨-, hne⟩
    · rw [hnull, ok_bind]
      exact ⟨param, rfl, hP⟩
    · rw [hget, ok_bind]
      have hP' := hproc s len v vlen param hinside.value hP
      dsimp only
      by_cases hmore : (enumProc s len (some v) vlen param).2 = true
      · rw [if_pos hmore]
        refine ih _ _ ?_ hinside.next hP'
        rcases hinside.progress with h | h
        · omega
        · rw [h, Option.getD_none]
          omega
      · rw [if_neg hmore]
        exact ⟨_, rfl, hP'⟩
    · exact absurd rfl hne

theorem findTagValuePtr_ok (towlower : WChar → WChar) {string : Option Nat}
    (hstring : ∀ p ∈ string, p ≤ t.chars.length) (tag_name : List WChar) {eq sep : WChar}
    (heq : eq ≠ 0) (hsep : sep ≠ 0) : ∃ found,
      findTagValuePtr t towlower string tag_name eq sep = .ok found ∧
        ∀ v ∈ found, v.1 + v.2 ≤ t.chars.length := by
  cases string with
  | none => exact ⟨none, rfl, nofun⟩
  | some p =>
    have hproc : ∀ name name_len v len (param : Option Nat × Nat), v + len ≤ t.chars.length →
        (∀ v ∈ param.1, v + param.2 ≤ t.chars.length) →
        ∀ v' ∈ (tagFindProc t towlower tag_name name name_len (some v) len param).1.1,
          v' + (tagFindProc t towlower tag_name name name_len (some v) len param).1.2 ≤
            t.chars.length := by
      intro name name_len v len param hin hP
      rw [tagFindProc]
      split_ifs
      · rintro _ ⟨⟩
        exact hin
      · exact hP
    obtain ⟨found, hfound, hin⟩ := enumTagValues_ok
      (P := fun found : Option Nat × Nat => ∀ v ∈ found.1, v + found.2 ≤ t.chars.length)
      heq hsep hproc (t.chars.length + 1) p (none, 0) (by omega) (hstring p rfl) nofun
    rw [findTagValuePtr, hfound, ok_bind]
    refine ⟨_, rfl, fun v hv => ?_⟩
    obtain ⟨value, hvalue, rfl⟩ := Option.map_eq_some_iff.mp hv
    exact hin value hvalue

end Helpers

end Sandboxie.StrUtil
