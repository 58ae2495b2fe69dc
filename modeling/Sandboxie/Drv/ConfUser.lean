import Mathlib.Data.List.Basic
import Mathlib.Data.List.DropRight
import Mathlib.Data.List.Infix
import Mathlib.Tactic.Common
import Sandboxie.Common.Text

/-!
# User names in a list

`Conf_FindUserName` of `core/drv/conf_user.c` looks for the name of a user or a group in the list
of an `Enabled` setting.  It goes through the list once.  Where the comparison with the name
fails it starts over right behind, which may be in the middle of an entry, and at the end of the
list it may be behind the terminator.
-/

namespace Sandboxie.ConfUser

open List

/-- `,` -/
abbrev comma : WChar := 44

def blank (c : WChar) : Bool := c = 32 || c = 9

/-- What the loop over the name comes to, and where `haystack` is then. -/
inductive Compared
  /-- The name has been found to its end. -/
  | name (haystack : List WChar)
  | other (haystack : List WChar)
  /-- The terminator of the list has been read, and `haystack` is behind it. -/
  | behind
deriving DecidableEq, Repr

/-- `(x == L' ') ? L'_' : towlower(x)` -/
def folded (towlower : WChar → WChar) (x : WChar) : WChar := if x = 32 then 95 else towlower x

def compare (towlower : WChar → WChar) : List WChar → List WChar → Compared
  | [], haystack => .name haystack
  | _ :: _, [] => .behind
  | n :: needle, x :: haystack =>
    if x = comma then .other haystack
    else if folded towlower x = towlower n then compare towlower needle haystack
    else .other haystack

theorem compare_length {towlower : WChar → WChar} : ∀ {needle : List WChar} (haystack rest),
    (compare towlower needle haystack = .name rest → rest.length + needle.length =
      haystack.length) ∧
    (compare towlower needle haystack = .other rest → rest.length < haystack.length) := by
  intro needle
  induction needle with
  | nil =>
    intro haystack rest
    refine ⟨fun h => ?_, nofun⟩
    obtain rfl := Compared.name.inj h
    rfl
  | cons n needle ih =>
    intro haystack rest
    cases haystack with
    | nil => exact ⟨nofun, nofun⟩
    | cons x haystack =>
      have hlater := ih haystack rest
      rw [compare]
      split_ifs
      · refine ⟨nofun, fun h => ?_⟩
        obtain rfl := Compared.other.inj h
        exact Nat.lt_succ_self _
      · refine ⟨fun h => ?_, fun h => ?_⟩
        · have hlen := hlater.1 h
          rw [length_cons, length_cons, ← Nat.add_assoc, hlen]
        · exact Nat.lt_succ_of_lt (hlater.2 h)
      · refine ⟨nofun, fun h => ?_⟩
        obtain rfl := Compared.other.inj h
        exact Nat.lt_succ_self _

/-- The outer loop, for a name `n :: needle`; nothing where a character behind the terminator of
the list is read. -/
def scan (towlower : WChar → WChar) (n : WChar) (needle : List WChar) (haystack : List WChar) :
    Option Bool :=
  match hskip : haystack.dropWhile fun c => blank c || c = comma with
  | [] => some false
  | x :: more =>
    match hcompare : compare towlower (n :: needle) (x :: more) with
    | .behind => none
    | .other rest => scan towlower n needle rest
    | .name rest =>
      match hrest : rest.dropWhile blank with
      | [] => some true
      | c :: rest' => if c = comma then some true else scan towlower n needle (c :: rest')
termination_by haystack.length
decreasing_by
  · have hlen := (compare_length _ _).2 hcompare
    have hle := (List.dropWhile_suffix (l := haystack) fun c => blank c || c = comma).length_le
    rw [hskip] at hle
    omega
  · have hlen := (compare_length _ _).1 hcompare
    have hle := (List.dropWhile_suffix (l := haystack) fun c => blank c || c = comma).length_le
    have hle' := (List.dropWhile_suffix (l := rest) blank).length_le
    rw [hskip] at hle
    rw [hrest] at hle'
    simp only [List.length_cons] at *
    omega

/-- `Conf_FindUserName` -/
def findUserName (towlower : WChar → WChar) (needle haystack : List WChar) : Option Bool :=
  match needle with
  | [] => some false
  | n :: needle => scan towlower n needle haystack

/-! ### Entries -/

def entries (list : List WChar) : List (List WChar) := list.splitOn comma

def trimmed (entry : List WChar) : List WChar := (entry.dropWhile blank).rdropWhile blank

/-- **The meaning of the list:** an entry, trimmed and with `_` for its spaces, is the name in
upper or lower case. -/
def Listed (towlower : WChar → WChar) (name list : List WChar) : Prop :=
  ∃ entry ∈ entries list,
    Text.sameNoCase towlower ((trimmed entry).map fun c => if c = 32 then 95 else c) name = true

instance (towlower : WChar → WChar) (name list : List WChar) :
    Decidable (Listed towlower name list) :=
  inferInstanceAs (Decidable (∃ entry ∈ entries list,
    Text.sameNoCase towlower ((trimmed entry).map fun c => if c = 32 then 95 else c) name = true))

/-! ### Where a comparison starts -/

/-- How many characters of the name are at the beginning of a text. -/
def agree (towlower : WChar → WChar) : List WChar → List WChar → Nat
  | n :: name, x :: text =>
    if folded towlower x = towlower n then agree towlower name text + 1 else 0
  | _, _ => 0

/-- Where the search goes on, when a text does not end with the name: behind the name, or behind
the first character that is another one. -/
def onward (towlower : WChar → WChar) (name text : List WChar) : List WChar :=
  if agree towlower name text = name.length then text.drop name.length
  else text.drop (agree towlower name text + 1)

/-- The texts within an entry with which the name is compared. -/
inductive Compares (towlower : WChar → WChar) (name : List WChar) : List WChar → List WChar → Prop
  | here (entry : List WChar) : Compares towlower name entry (entry.dropWhile blank)
  | later {entry text : List WChar} (hmore : entry.dropWhile blank ≠ [])
      (h : Compares towlower name (onward towlower name (entry.dropWhile blank)) text) :
      Compares towlower name entry text

def Hits (towlower : WChar → WChar) (name entry : List WChar) : Prop :=
  ∃ text, Compares towlower name entry text ∧ agree towlower name text = name.length ∧
    (text.drop name.length).dropWhile blank = []

/-- A comparison in the entry comes to its end within the name. -/
def Breaks (towlower : WChar → WChar) (name entry : List WChar) : Prop :=
  ∃ text, Compares towlower name entry text ∧ text ≠ [] ∧
    agree towlower name text = text.length ∧ text.length < name.length

section Entries

variable {towlower : WChar → WChar} {n : WChar} {needle name entry text : List WChar}

theorem agree_le (towlower : WChar → WChar) (name text : List WChar) :
    agree towlower name text ≤ name.length ∧ agree towlower name text ≤ text.length := by
  induction name generalizing text with
  | nil => exact ⟨Nat.zero_le _, Nat.zero_le _⟩
  | cons n name ih =>
    cases text with
    | nil => exact ⟨Nat.zero_le _, Nat.zero_le _⟩
    | cons x text =>
      rw [agree]
      split_ifs
      · exact ⟨Nat.succ_le_succ (ih text).1, Nat.succ_le_succ (ih text).2⟩
      · exact ⟨Nat.zero_le _, Nat.zero_le _⟩

theorem compare_append (towlower : WChar → WChar) (name : List WChar) (hcomma : comma ∉ text)
    (tail : List WChar)
    (htail : tail = [] ∨ ∃ more, tail = comma :: more) :
    compare towlower name (text ++ tail) =
      if agree towlower name text = name.length then .name (text.drop name.length ++ tail)
      else if agree towlower name text < text.length then
        .other (text.drop (agree towlower name text + 1) ++ tail)
      else if tail = [] then .behind else .other tail.tail := by
  induction name generalizing text with
  | nil => rfl
  | cons n name ih =>
    cases text with
    | nil =>
      rcases htail with rfl | ⟨more, rfl⟩
      · rfl
      · rfl
    | cons x text =>
      have hx : x ≠ comma := fun h => hcomma (h ▸ mem_cons_self)
      rw [cons_append, compare, if_neg hx, agree]
      by_cases hsame : folded towlower x = towlower n
      · rw [if_pos hsame, if_pos hsame, ih fun h => hcomma (mem_cons_of_mem x h)]
        simp only [length_cons, Nat.add_right_cancel_iff, drop_succ_cons,
          Nat.add_lt_add_iff_right]
      · rw [if_neg hsame, if_neg hsame]
        simp

theorem skip_append (hcomma : comma ∉ entry) (tail : List WChar) :
    ((entry ++ tail).dropWhile fun c => blank c || c = comma) =
      if entry.dropWhile blank = [] then tail.dropWhile fun c => blank c || c = comma
      else entry.dropWhile blank ++ tail := by
  induction entry with
  | nil => rfl
  | cons c entry ih =>
    have hc : c ≠ comma := fun h => hcomma (h ▸ mem_cons_self)
    rw [cons_append, dropWhile_cons, dropWhile_cons]
    cases hblank : blank c with
    | true => simpa using ih fun h => hcomma (mem_cons_of_mem c h)
    | false => simp [hc]

theorem scan_eq (haystack : List WChar) : scan towlower n needle haystack =
    match haystack.dropWhile fun c => blank c || c = comma with
    | [] => some false
    | x :: more =>
      match compare towlower (n :: needle) (x :: more) with
      | .behind => none
      | .other rest => scan towlower n needle rest
      | .name rest =>
        match rest.dropWhile blank with
        | [] => some true
        | c :: rest' => if c = comma then some true else scan towlower n needle (c :: rest') := by
  rw [scan]
  split
  · rename_i hskip
    rw [hskip]
  rename_i hskip
  rw [hskip]
  dsimp only
  split
  · rename_i hcompare
    rw [hcompare]
  · rename_i hcompare
    rw [hcompare]
  rename_i hcompare
  rw [hcompare]
  dsimp only
  split
  · rename_i hrest
    rw [hrest]
  · rename_i hrest
    rw [hrest]

theorem scan_nil : scan towlower n needle [] = some false := by
  rw [scan_eq]
  rfl

theorem scan_comma (more : List WChar) :
    scan towlower n needle (comma :: more) = scan towlower n needle more := by
  rw [scan_eq, scan_eq more]
  rfl

theorem scan_strip (hcomma : comma ∉ entry) (tail : List WChar) :
    scan towlower n needle (entry.dropWhile blank ++ tail) =
      scan towlower n needle (entry ++ tail) := by
  have hsuffix := dropWhile_suffix (l := entry) blank
  have hcomma' : comma ∉ entry.dropWhile blank := fun h => hcomma (hsuffix.subset h)
  rw [scan_eq, scan_eq (entry ++ tail), skip_append hcomma, skip_append hcomma',
    dropWhile_idempotent]

theorem onward_length (towlower : WChar → WChar) (hname : name ≠ []) (htext : text ≠ []) :
    (onward towlower name text).length < text.length := by
  have hpos := length_pos_of_ne_nil htext
  have hpos' := length_pos_of_ne_nil hname
  unfold onward
  split_ifs <;> rw [length_drop] <;> omega

theorem mem_onward {c : WChar} (h : c ∈ onward towlower name text) : c ∈ text := by
  unfold onward at h
  split_ifs at h <;> exact mem_of_mem_drop h

theorem compares_cases (h : Compares towlower name entry text) :
    text = entry.dropWhile blank ∨ entry.dropWhile blank ≠ [] ∧
      Compares towlower name (onward towlower name (entry.dropWhile blank)) text := by
  cases h with
  | here => exact .inl rfl
  | later hmore h => exact .inr ⟨hmore, h⟩

theorem hits_iff : Hits towlower name entry ↔
    (agree towlower name (entry.dropWhile blank) = name.length ∧
      ((entry.dropWhile blank).drop name.length).dropWhile blank = []) ∨
    entry.dropWhile blank ≠ [] ∧
      Hits towlower name (onward towlower name (entry.dropWhile blank)) := by
  constructor
  · rintro ⟨text, hcompares, hagree, hrest⟩
    rcases compares_cases hcompares with rfl | ⟨hmore, hlater⟩
    · exact .inl ⟨hagree, hrest⟩
    · exact .inr ⟨hmore, text, hlater, hagree, hrest⟩
  · rintro (⟨hagree, hrest⟩ | ⟨hmore, text, hlater, hagree, hrest⟩)
    · exact ⟨_, .here entry, hagree, hrest⟩
    · exact ⟨text, .later hmore hlater, hagree, hrest⟩

theorem breaks_iff : Breaks towlower name entry ↔ entry.dropWhile blank ≠ [] ∧
    ((agree towlower name (entry.dropWhile blank) = (entry.dropWhile blank).length ∧
      (entry.dropWhile blank).length < name.length) ∨
    Breaks towlower name (onward towlower name (entry.dropWhile blank))) := by
  constructor
  · rintro ⟨text, hcompares, hne, hagree, hlt⟩
    rcases compares_cases hcompares with rfl | ⟨hmore, hlater⟩
    · exact ⟨hne, .inl ⟨hagree, hlt⟩⟩
    · exact ⟨hmore, .inr ⟨text, hlater, hne, hagree, hlt⟩⟩
  · rintro ⟨hmore, ⟨hagree, hlt⟩ | ⟨text, hlater, hne, hagree, hlt⟩⟩
    · exact ⟨_, .here entry, hmore, hagree, hlt⟩
    · exact ⟨text, .later hmore hlater, hne, hagree, hlt⟩

theorem not_hits_nil (hname : name ≠ []) : ¬ Hits towlower name [] := by
  rw [hits_iff]
  rintro (⟨hagree, -⟩ | ⟨hmore, -⟩)
  · have hle : agree towlower name [] ≤ 0 := (agree_le towlower name []).2
    have hpos := length_pos_of_ne_nil hname
    rw [dropWhile_nil] at hagree
    rw [hagree] at hle
    exact absurd hle (Nat.not_le.mpr hpos)
  · exact hmore rfl

theorem scan_entry (towlower : WChar → WChar) (n : WChar) (needle tail : List WChar)
    (htail : tail = [] ∨ ∃ more, tail = comma :: more) :
    ∀ entry : List WChar, comma ∉ entry →
      (Hits towlower (n :: needle) entry → scan towlower n needle (entry ++ tail) = some true) ∧
      (¬ Hits towlower (n :: needle) entry → Breaks towlower (n :: needle) entry → tail = [] →
        scan towlower n needle (entry ++ tail) = none) ∧
      (¬ Hits towlower (n :: needle) entry → (Breaks towlower (n :: needle) entry → tail ≠ []) →
        scan towlower n needle (entry ++ tail) = scan towlower n needle tail) := by
  intro entry
  induction hlen : entry.length using Nat.strong_induction_on generalizing entry with
  | _ length ih =>
  intro hcomma
  by_cases hskip : entry.dropWhile blank = []
  · -- an entry of blanks
    have hhits : ¬ Hits towlower (n :: needle) entry := by
      rw [hits_iff, hskip]
      rintro (⟨hagree, -⟩ | ⟨hmore, -⟩)
      · exact nomatch hagree
      · exact hmore rfl
    have hscan : scan towlower n needle (entry ++ tail) = scan towlower n needle tail := by
      rw [← scan_strip hcomma, hskip, nil_append]
    refine ⟨fun h => absurd h hhits, fun _ hbreaks => absurd hskip (breaks_iff.mp hbreaks).1,
      fun _ _ => hscan⟩
  · rw [hits_iff, breaks_iff, ← scan_strip hcomma]
    have hsuffix := dropWhile_suffix (l := entry) blank
    have hcomma' : comma ∉ entry.dropWhile blank := fun h => hcomma (hsuffix.subset h)
    have hidem := dropWhile_idempotent (p := blank) (l := entry)
    have hshort := hsuffix.length_le
    generalize entry.dropWhile blank = text at hskip hcomma' hidem hshort
    obtain ⟨c, text', rfl⟩ := exists_cons_of_ne_nil hskip
    have hstart : ((c :: text' ++ tail).dropWhile fun c => blank c || c = comma) =
        c :: (text' ++ tail) := by
      rw [skip_append hcomma', hidem, if_neg hskip]
      rfl
    have hcompare := compare_append towlower (n :: needle) hcomma' tail htail
    have hnext := onward_length towlower (cons_ne_nil n needle) hskip
    have hlater := ih _ (by omega) (onward towlower (n :: needle) (c :: text')) rfl
      fun h => hcomma' (mem_onward h)
    have hle := agree_le towlower (n :: needle) (c :: text')
    rw [scan_eq, hstart]
    dsimp only
    rw [← cons_append, hcompare]
    by_cases hagree : agree towlower (n :: needle) (c :: text') = (n :: needle).length
    · -- the name has been found
      rw [if_pos hagree]
      dsimp only
      have honward : onward towlower (n :: needle) (c :: text') =
          (c :: text').drop (n :: needle).length := if_pos hagree
      have hnotBreaks : ¬ (agree towlower (n :: needle) (c :: text') = (c :: text').length ∧
          (c :: text').length < (n :: needle).length) := fun h => by omega
      have hcomma'' : comma ∉ (c :: text').drop (n :: needle).length := fun h =>
        hcomma' (mem_of_mem_drop h)
      rw [honward] at hlater ⊢
      generalize (c :: text').drop (n :: needle).length = rest at hlater hcomma'' ⊢
      have hend : tail.dropWhile blank = tail := by
        rcases htail with rfl | ⟨more, rfl⟩ <;> rfl
      rw [dropWhile_append, hend]
      cases hrest : rest.dropWhile blank with
      | nil =>
        refine ⟨fun _ => ?_, fun h => absurd (.inl ⟨hagree, rfl⟩) h,
          fun h => absurd (.inl ⟨hagree, rfl⟩) h⟩
        rcases htail with rfl | ⟨more, rfl⟩ <;> rfl
      | cons d rest' =>
        have hd : d ≠ comma := by
          rintro rfl
          refine hcomma'' ((dropWhile_suffix (l := rest) blank).subset ?_)
          rw [hrest]
          exact mem_cons_self
        have hscan : scan towlower n needle (d :: (rest' ++ tail)) =
            scan towlower n needle (rest ++ tail) := by
          rw [← scan_strip hcomma'' tail, hrest]
          rfl
        simp only [isEmpty_cons, Bool.false_eq_true, if_false, cons_append, hd, hscan,
          reduceCtorEq, and_false, false_or, ne_eq, not_false_eq_true, true_and, hnotBreaks]
        exact hlater
    · rw [if_neg hagree]
      have honward : onward towlower (n :: needle) (c :: text') =
          (c :: text').drop (agree towlower (n :: needle) (c :: text') + 1) := if_neg hagree
      simp only [hagree, false_and, false_or, ne_eq, hskip, not_false_eq_true, true_and]
      by_cases hmore : agree towlower (n :: needle) (c :: text') < (c :: text').length
      · -- another character than the one of the name
        have hnotBreaks : ¬ (agree towlower (n :: needle) (c :: text') = (c :: text').length ∧
            (c :: text').length < (n :: needle).length) := fun h => by omega
        rw [if_pos hmore, ← honward]
        simp only [hnotBreaks, false_or]
        exact hlater
      · -- the entry ends within the name
        have hdrop : onward towlower (n :: needle) (c :: text') = [] := by
          rw [honward]
          exact drop_eq_nil_of_le (by omega)
        have hbreaks : agree towlower (n :: needle) (c :: text') = (c :: text').length ∧
            (c :: text').length < (n :: needle).length := by omega
        rw [if_neg hmore, hdrop]
        refine ⟨fun h => absurd h (not_hits_nil (cons_ne_nil n needle)), fun _ _ hnil => ?_,
          fun _ hne => ?_⟩
        · rw [if_pos hnil]
        · have hne := hne (.inl hbreaks)
          obtain ⟨more, rfl⟩ := htail.resolve_left hne
          rw [if_neg hne, scan_comma]
          rfl

/-- **The scan of a list.**  A hit in an entry is enough, and what breaks off at the end of the
last entry goes on behind the terminator. -/
theorem scan_list (towlower : WChar → WChar) (n : WChar) (needle : List WChar) :
    ∀ list : List WChar,
    ((∃ entry ∈ entries list, Hits towlower (n :: needle) entry) →
      scan towlower n needle list = some true) ∧
    ((∀ entry ∈ entries list, ¬ Hits towlower (n :: needle) entry) →
      ((∃ entry ∈ (entries list).getLast?, Breaks towlower (n :: needle) entry) →
        scan towlower n needle list = none) ∧
      ((∀ entry ∈ (entries list).getLast?, ¬ Breaks towlower (n :: needle) entry) →
        scan towlower n needle list = some false)) := by
  intro list
  induction hlen : list.length using Nat.strong_induction_on generalizing list with
  | _ length ih =>
  by_cases hcomma : comma ∈ list
  · obtain ⟨entry, more, rfl, hnot⟩ := eq_append_cons_of_mem hcomma
    have hentries : entries (entry ++ comma :: more) = entry :: entries more :=
      splitOn_append_cons_self_of_not_mem hnot more
    have hlast : (entries (entry ++ comma :: more)).getLast? = (entries more).getLast? := by
      rw [hentries]
      exact getLast?_cons_of_ne_nil (splitOn_ne_nil comma more)
    obtain ⟨hhits, -, hgo⟩ := scan_entry towlower n needle (comma :: more)
      (.inr ⟨more, rfl⟩) entry hnot
    obtain ⟨hsome, hnone⟩ := ih more.length (by
      rw [← hlen, length_append, length_cons]
      omega) more rfl
    rw [hlast, hentries]
    simp only [mem_cons, exists_eq_or_imp, forall_eq_or_imp]
    rw [scan_comma] at hgo
    refine ⟨?_, ?_⟩
    · rintro (hhit | hlater)
      · exact hhits hhit
      · by_cases hhit : Hits towlower (n :: needle) entry
        · exact hhits hhit
        · rw [hgo hhit fun _ => cons_ne_nil comma more]
          exact hsome hlater
    · rintro ⟨hhit, hlater⟩
      rw [hgo hhit fun _ => cons_ne_nil comma more]
      exact hnone hlater
  · have hentries : entries list = [list] := splitOn_eq_singleton hcomma
    obtain ⟨hhits, hbreaks, hgo⟩ := scan_entry towlower n needle [] (.inl rfl) list hcomma
    rw [append_nil] at hhits hbreaks hgo
    rw [hentries]
    simp only [mem_singleton, exists_eq_left, forall_eq, getLast?_singleton,
      Option.mem_some_iff, exists_eq_left', forall_eq']
    refine ⟨hhits, fun hhit => ⟨fun hbreak => hbreaks hhit hbreak rfl, fun hbreak => ?_⟩⟩
    rw [hgo hhit fun h => absurd h hbreak]
    exact scan_nil

theorem agree_of_map {text : List WChar} (more : List WChar) :
    ∀ {name : List WChar}, text.map (folded towlower) = name.map towlower →
      agree towlower name (text ++ more) = name.length ∧ text.length = name.length := by
  induction text with
  | nil =>
    intro name h
    obtain rfl : name = [] := map_eq_nil_iff.mp h.symm
    exact ⟨rfl, rfl⟩
  | cons x text ih =>
    intro name h
    cases name with
    | nil => exact nomatch h
    | cons n name =>
      obtain ⟨hx, hmore⟩ := List.cons.inj h
      obtain ⟨hagree, hlen⟩ := ih hmore
      rw [cons_append, agree, if_pos hx, hagree]
      exact ⟨rfl, congrArg (· + 1) hlen⟩

theorem hits_of_same (hunder : towlower 95 = 95)
    (h : Text.sameNoCase towlower ((trimmed entry).map fun c => if c = 32 then 95 else c) name =
      true) : Hits towlower name entry := by
  have hmap : (trimmed entry).map (folded towlower) = name.map towlower := by
    rw [Text.sameNoCase, beq_iff_eq, map_map] at h
    rw [← h]
    refine map_congr_left fun c _ => ?_
    show folded towlower c = towlower (if c = 32 then 95 else c)
    unfold folded
    split_ifs
    · exact hunder.symm
    · rfl
  have hsplit : entry.dropWhile blank =
      trimmed entry ++ (entry.dropWhile blank).rtakeWhile blank :=
    (rdropWhile_append_rtakeWhile).symm
  obtain ⟨hagree, hlen⟩ := agree_of_map ((entry.dropWhile blank).rtakeWhile blank) hmap
  refine ⟨_, .here entry, ?_, ?_⟩
  · rw [hsplit]
    exact hagree
  · rw [hsplit, ← hlen, drop_left]
    exact dropWhile_eq_nil_iff.mpr fun c hc => mem_rtakeWhile_imp hc

end Entries

/-- `Conf_FindUserName` decides whether the name is listed, and reads nothing behind the list,
exactly where the name is listed, or no comparison in an entry hits and none breaks off at the
end of the last entry. -/
theorem findUserName_iff {towlower : WChar → WChar} (hunder : towlower 95 = 95)
    (name list : List WChar) :
    (∃ found, findUserName towlower name list = some found ∧
      (found = true ↔ Listed towlower name list)) ↔
    (Listed towlower name list ∧ name ≠ []) ∨ (¬ Listed towlower name list ∧ (name = [] ∨
      (∀ entry ∈ entries list, ¬ Hits towlower name entry) ∧
      ∀ entry ∈ (entries list).getLast?, ¬ Breaks towlower name entry)) := by
  cases name with
  | nil => simp [findUserName]
  | cons n needle =>
    have hscan := scan_list towlower n needle list
    have hhits : Listed towlower (n :: needle) list →
        ∃ entry ∈ entries list, Hits towlower (n :: needle) entry := by
      rintro ⟨entry, hmem, hsame⟩
      exact ⟨entry, hmem, hits_of_same hunder hsame⟩
    show (∃ found, scan towlower n needle list = some found ∧ _) ↔ _
    constructor
    · rintro ⟨found, hfound, hiff⟩
      by_cases hlisted : Listed towlower (n :: needle) list
      · exact .inl ⟨hlisted, cons_ne_nil n needle⟩
      refine .inr ⟨hlisted, .inr ?_⟩
      have hnot : ∀ entry ∈ entries list, ¬ Hits towlower (n :: needle) entry := by
        intro entry hmem hhit
        have htrue := hscan.1 ⟨entry, hmem, hhit⟩
        obtain rfl := Option.some.inj (hfound.symm.trans htrue)
        exact hlisted (hiff.mp rfl)
      refine ⟨hnot, fun entry hmem hbreak => ?_⟩
      have hnone := (hscan.2 hnot).1 ⟨entry, hmem, hbreak⟩
      exact nomatch hfound.symm.trans hnone
    · rintro (⟨hlisted, -⟩ | ⟨hlisted, hnil | ⟨hnot, hbreak⟩⟩)
      · exact ⟨true, hscan.1 (hhits hlisted), iff_of_true rfl hlisted⟩
      · exact absurd hnil (cons_ne_nil n needle)
      · exact ⟨false, (hscan.2 hnot).2 hbreak, iff_of_false Bool.false_ne_true hlisted⟩

theorem findUserName_iff_alice : Text.asciiLower 95 = 95 ∧
    ((∃ found, findUserName Text.asciiLower (wide "alice".toList) (wide ",bob, Alice".toList) =
        some found ∧
      (found = true ↔ Listed Text.asciiLower (wide "alice".toList) (wide ",bob, Alice".toList))) ↔
    (Listed Text.asciiLower (wide "alice".toList) (wide ",bob, Alice".toList) ∧
      wide "alice".toList ≠ []) ∨
    (¬ Listed Text.asciiLower (wide "alice".toList) (wide ",bob, Alice".toList) ∧
      (wide "alice".toList = [] ∨
        (∀ entry ∈ entries (wide ",bob, Alice".toList),
          ¬ Hits Text.asciiLower (wide "alice".toList) entry) ∧
        ∀ entry ∈ (entries (wide ",bob, Alice".toList)).getLast?,
          ¬ Breaks Text.asciiLower (wide "alice".toList) entry))) :=
  ⟨by decide, findUserName_iff (by decide) _ _⟩

/-- `bob` is found in `xbob`, and the end of the list is passed after `bo`. -/
theorem xbob_found :
    findUserName Text.asciiLower (wide "bob".toList) (wide ",xbob".toList) = some true ∧
    ¬ Listed Text.asciiLower (wide "bob".toList) (wide ",xbob".toList) ∧
    findUserName Text.asciiLower (wide "bob".toList) (wide ",bo".toList) = none := by
  refine ⟨?_, by decide, ?_⟩
  · show scan Text.asciiLower 98 [111, 98] [44, 120, 98, 111, 98] = _
    rw [scan_eq]
    show scan Text.asciiLower 98 [111, 98] [98, 111, 98] = _
    rw [scan_eq]
    rfl
  · show scan Text.asciiLower 98 [111, 98] [44, 98, 111] = _
    rw [scan_eq]
    rfl

end Sandboxie.ConfUser
