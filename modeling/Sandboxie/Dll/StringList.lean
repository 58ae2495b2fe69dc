import Sandboxie.Common.ImageValue

/-!
# Values for a string

`SbieDll_GetStringsForStringList` of `core/dll/config.c`.  An entry of the list is a string, a
comma and a value, or a default without a comma; what `SbieApi_QueryConfAsIs` answers to an index
is a text, that it does not fit into the buffer, or that there is none.

The loop counts the entries for the string and the defaults with one `pos`.  So it gives the entry
at that position among both, and `getStrings_iff` says when this is the one that is meant.
-/

namespace Sandboxie.StringList

open Text Image List

abbrev confMaxLines : Nat := 100000
/-- The number of characters in `buf` that the driver is told of. -/
abbrev bufLen : Nat := 2000 - 2

/-- What `SbieApi_QueryConfAsIs` answers. -/
inductive Answer
  | success (buf : List WChar)
  | bufferTooSmall
  | failure

/-- `SbieApi_QueryConfAsIs` for an index at which there is a value. -/
def queryConfAsIs (value : List WChar) (index : Nat) : Answer :=
  if index > confMaxLines then .failure
  else if value.length + 1 > bufLen then .bufferTooSmall
  else .success value

/-- `wcscpy_s` into a buffer with `room`, which holds `old`. -/
def wcscpyS (room : Nat) (old text : List WChar) : List WChar :=
  if room = 0 then old else if text.length < room then text else []

/-- The buffer `value` and what is returned. -/
structure Out where
  value : List WChar
  found : Bool
deriving DecidableEq

section Loop

variable (towlower : WChar → WChar) (string : List WChar) (room : Nat)

/-- The loop of `SbieDll_GetStringsForStringList`; the list holds the values from `index` on. -/
def stringsLoop : List (List WChar) → Nat → Int → Out → Out
  | [], _, _, out => out
  | v :: rest, index, pos, out =>
    match queryConfAsIs v index with
    | .failure => out
    | .bufferTooSmall => stringsLoop rest (index + 1) pos out
    | .success buf =>
      if comma ∈ buf then
        if sameNoCase towlower (buf.takeWhile (· ≠ comma)) string then
          if pos = 0 then ⟨wcscpyS room out.value ((buf.dropWhile (· ≠ comma)).drop 1), true⟩
          else stringsLoop rest (index + 1) (pos - 1) out
        else stringsLoop rest (index + 1) pos out
      else if !out.found then
        if pos = 0 then
          stringsLoop rest (index + 1) (pos - 1) ⟨wcscpyS room out.value buf, true⟩
        else stringsLoop rest (index + 1) (pos - 1) out
      else stringsLoop rest (index + 1) pos out

/-- `SbieDll_GetStringsForStringList` with the values of the setting; `value` holds `old`. -/
def getStringsForStringList (values : List (List WChar)) (pos : Int) (old : List WChar) : Out :=
  stringsLoop towlower string room values 0 pos ⟨old, false⟩

end Loop

/-! ### What is meant -/

/-- An entry that is a default or is for the string. -/
structure Entry where
  text : List WChar
  specific : Bool
  /-- the driver hands it over -/
  read : Bool
deriving DecidableEq

section Entries

variable (towlower : WChar → WChar) (string : List WChar)

/-- The value at an index, unless it is for another string. -/
def entry (v : List WChar) (index : Nat) : Option Entry :=
  let read := decide (index ≤ confMaxLines ∧ v.length + 1 ≤ bufLen)
  if comma ∈ v then
    if sameNoCase towlower (v.takeWhile (· ≠ comma)) string then
      some ⟨(v.dropWhile (· ≠ comma)).drop 1, true, read⟩
    else none
  else some ⟨v, false, read⟩

/-- The entries of the values from an index on. -/
def entries : List (List WChar) → Nat → List Entry
  | [], _ => []
  | v :: rest, index =>
    match entry towlower string v index with
    | some e => e :: entries rest (index + 1)
    | none => entries rest (index + 1)

end Entries

/-- The entry counts: it is for the string, or it is a default and nothing is for the string. -/
def wanted (es : List Entry) (e : Entry) : Bool := e.specific || !es.any (·.specific)

def nth (es : List Entry) (pos : Int) : Option Entry := if pos < 0 then none else es[pos.toNat]?

def give (room : Nat) (old : List WChar) : Option Entry → Out
  | some e => ⟨wcscpyS room old e.text, true⟩
  | none => ⟨old, false⟩

/-- What is meant: the value at a position among those for the string, or among the defaults when
there is none. -/
def meant (room : Nat) (es : List Entry) (pos : Int) (old : List WChar) : Out :=
  give room old (nth (es.filter (wanted es)) pos)

/-! ### What the loop gives -/

theorem nth_nil (pos : Int) : nth [] pos = none := by
  rw [nth, getElem?_nil, ite_self]

theorem nth_zero (e : Entry) (es : List Entry) : nth (e :: es) 0 = some e := rfl

theorem nth_succ (e : Entry) (es : List Entry) {pos : Int} (h : pos ≠ 0) :
    nth (e :: es) pos = nth es (pos - 1) := by
  rw [nth, nth]
  by_cases hneg : pos < 0
  · rw [if_pos hneg, if_pos (by omega)]
  · rw [if_neg hneg, if_neg (by omega)]
    have hpos : pos.toNat = (pos - 1).toNat + 1 := by omega
    rw [hpos, getElem?_cons_succ]

theorem nth_neg (es : List Entry) {pos : Int} (h : pos < 0) : nth es pos = none := if_pos h

section Loop

variable {towlower : WChar → WChar} {string : List WChar} {room : Nat}

theorem stringsLoop_neg {out : Out} : ∀ (values : List (List WChar)) (index : Nat) (pos : Int),
    pos < 0 → stringsLoop towlower string room values index pos out = out := by
  intro values
  induction values with
  | nil => exact fun index pos _ => rfl
  | cons v rest ih =>
    intro index pos hpos
    have hne : pos ≠ 0 := by omega
    rw [stringsLoop]
    cases queryConfAsIs v index with
    | failure => rfl
    | bufferTooSmall => exact ih _ _ hpos
    | success buf =>
      dsimp only
      rw [if_neg hne, if_neg hne, ih _ _ hpos, ih _ _ (by omega), ite_self, ite_self, ite_self]

theorem entry_read {v : List WChar} {index : Nat} {e : Entry}
    (h : entry towlower string v index = some e) :
    e.read = decide (index ≤ confMaxLines ∧ v.length + 1 ≤ bufLen) := by
  rw [entry] at h
  split at h
  · split at h
    · cases h; rfl
    · cases h
  · cases h; rfl

theorem entries_cons_unread {v : List WChar} (rest : List (List WChar)) {index : Nat}
    (h : ¬(index ≤ confMaxLines ∧ v.length + 1 ≤ bufLen)) :
    (entries towlower string (v :: rest) index).filter (·.read) =
      (entries towlower string rest (index + 1)).filter (·.read) := by
  rw [entries]
  split
  case h_1 e he =>
    have hread : ¬e.read = true := by
      rw [entry_read he, decide_eq_true_iff]
      exact h
    rw [filter_cons_of_neg hread]
  case h_2 => rfl

theorem entries_unread : ∀ (values : List (List WChar)) (index : Nat), index > confMaxLines →
    (entries towlower string values index).filter (·.read) = [] := by
  intro values
  induction values with
  | nil => exact fun index _ => rfl
  | cons v rest ih =>
    intro index hindex
    rw [entries_cons_unread rest fun h => absurd h.1 (by omega)]
    exact ih _ (by omega)

/-- **The loop gives the entry at the position among all that are read**, defaults or not. -/
theorem stringsLoop_eq (old : List WChar) :
    ∀ (values : List (List WChar)) (index : Nat) (pos : Int),
      stringsLoop towlower string room values index pos ⟨old, false⟩ =
        give room old (nth ((entries towlower string values index).filter (·.read)) pos) := by
  intro values
  induction values with
  | nil =>
    intro index pos
    rw [entries, filter_nil, nth_nil]
    rfl
  | cons v rest ih =>
    intro index pos
    by_cases hindex : index > confMaxLines
    · have hquery : queryConfAsIs v index = .failure := if_pos hindex
      rw [entries_unread _ _ hindex, stringsLoop, hquery, nth_nil]
      rfl
    by_cases hlong : v.length + 1 > bufLen
    · have hquery : queryConfAsIs v index = .bufferTooSmall :=
        (if_neg hindex).trans (if_pos hlong)
      rw [entries_cons_unread rest fun h => absurd h.2 (by omega), stringsLoop, hquery]
      exact ih _ _
    · have hread : decide (index ≤ confMaxLines ∧ v.length + 1 ≤ bufLen) = true :=
        decide_eq_true ⟨by omega, by omega⟩
      have hquery : queryConfAsIs v index = .success v :=
        (if_neg hindex).trans (if_neg hlong)
      rw [stringsLoop, hquery, entries, entry]
      dsimp only
      rw [hread]
      by_cases hcomma : comma ∈ v
      · rw [if_pos hcomma, if_pos hcomma]
        by_cases hname : sameNoCase towlower (v.takeWhile (· ≠ comma)) string = true
        · rw [if_pos hname, if_pos hname]
          rw [filter_cons_of_pos rfl]
          by_cases hpos : pos = 0
          · subst hpos
            rw [if_pos rfl, nth_zero]
            rfl
          · rw [if_neg hpos, ih, nth_succ _ _ hpos]
        · rw [if_neg hname, if_neg hname]
          exact ih _ _
      · rw [if_neg hcomma, if_neg hcomma]
        rw [filter_cons_of_pos rfl, if_pos (by decide)]
        by_cases hpos : pos = 0
        · subst hpos
          rw [if_pos rfl, nth_zero, stringsLoop_neg _ _ _ (by omega)]
          rfl
        · rw [if_neg hpos, ih, nth_succ _ _ hpos]

end Loop

/-! ### When it is what is meant -/

/-- Of the entries that are read or wanted, the first ones up to the position are both. -/
def AllAlike (es : List Entry) (pos : Int) : Prop :=
  ∀ e ∈ (es.filter fun e => e.read || wanted es e).take (pos.toNat + 1),
    e.read = true ∧ wanted es e = true

/-- Otherwise the value is right by chance: there is none to give, and none is read at the
position; or what stands there has the same text. -/
def ByChance (room : Nat) (es : List Entry) (pos : Int) (old : List WChar) : Prop :=
  (((es.filter (·.read)).length : Int) ≤ pos ∧ ((es.filter (wanted es)).length : Int) ≤ pos) ∨
  ∃ e e', nth (es.filter (·.read)) pos = some e ∧ nth (es.filter (wanted es)) pos = some e' ∧
    wcscpyS room old e.text = wcscpyS room old e'.text

theorem filter_getElem?_alike {α : Type} {p q : α → Bool} :
    ∀ (l : List α) (n : Nat),
      (∀ x ∈ (l.filter fun x => p x || q x).take (n + 1), p x = true ∧ q x = true) →
      (l.filter p)[n]? = (l.filter q)[n]? := by
  intro l
  induction l with
  | nil => exact fun n _ => rfl
  | cons x l ih =>
    intro n h
    rw [filter_cons] at h
    by_cases hx : (p x || q x) = true
    · rw [if_pos hx, take_succ_cons] at h
      obtain ⟨hp, hq⟩ := h x mem_cons_self
      rw [filter_cons_of_pos hp, filter_cons_of_pos hq]
      cases n with
      | zero => rfl
      | succ n => exact ih n fun y hy => h y (mem_cons_of_mem _ hy)
    · rw [if_neg hx] at h
      rw [Bool.or_eq_true, not_or] at hx
      rw [filter_cons_of_neg hx.1, filter_cons_of_neg hx.2]
      exact ih n h

theorem give_eq_iff (room : Nat) (old : List WChar) (o o' : Option Entry) :
    give room old o = give room old o' ↔
      (o = none ∧ o' = none) ∨
        ∃ e e', o = some e ∧ o' = some e' ∧ wcscpyS room old e.text = wcscpyS room old e'.text := by
  cases o with
  | none =>
    cases o' with
    | none => exact iff_of_true rfl (.inl ⟨rfl, rfl⟩)
    | some e' => simp [give]
  | some e =>
    cases o' with
    | none => simp [give]
    | some e' => simp [give]

theorem nth_none_iff {es : List Entry} {pos : Int} (h : 0 ≤ pos) :
    nth es pos = none ↔ (es.length : Int) ≤ pos := by
  rw [nth, if_neg (by omega), getElem?_eq_none_iff]
  omega

/-- **When the value is the one that is meant**: below zero, where there is none; when the entries
up to the position are all of the kind that is wanted; and by chance. -/
theorem getStrings_iff (towlower : WChar → WChar) (string : List WChar) (room : Nat)
    (values : List (List WChar)) (pos : Int) (old : List WChar) :
    getStringsForStringList towlower string room values pos old =
        meant room (entries towlower string values 0) pos old ↔
      pos < 0 ∨ AllAlike (entries towlower string values 0) pos ∨
        ByChance room (entries towlower string values 0) pos old := by
  rw [getStringsForStringList, stringsLoop_eq, meant]
  by_cases hpos : pos < 0
  · rw [nth_neg _ hpos, nth_neg _ hpos]
    exact iff_of_true rfl (.inl hpos)
  constructor
  · intro h
    rcases (give_eq_iff ..).mp h with ⟨hread, hwanted⟩ | hsame
    · exact .inr (.inr (.inl ⟨(nth_none_iff (by omega)).mp hread,
        (nth_none_iff (by omega)).mp hwanted⟩))
    · exact .inr (.inr (.inr hsame))
  · rintro (h | halike | ⟨hread, hwanted⟩ | hsame)
    · exact absurd h hpos
    · rw [nth, nth, if_neg hpos, if_neg hpos, filter_getElem?_alike _ _ halike]
    · rw [(nth_none_iff (by omega)).mpr hread, (nth_none_iff (by omega)).mpr hwanted]
    · exact (give_eq_iff ..).mpr (.inr hsame)

/-- A default in front of the value for the string is taken for it. -/
theorem default_in_front :
    getStringsForStringList asciiLower (wide "port".toList) 64
        [wide "def".toList, wide "port,own".toList] 0 [] = ⟨wide "def".toList, true⟩ ∧
      meant 64 (entries asciiLower (wide "port".toList)
        [wide "def".toList, wide "port,own".toList] 0) 0 [] = ⟨wide "own".toList, true⟩ := by
  decide

end Sandboxie.StringList
