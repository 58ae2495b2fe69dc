import Mathlib.Data.Int.Order.Basic
import Mathlib.Data.List.SplitOn
import Mathlib.Data.List.Infix
import Sandboxie.Common.Pattern
import Sandboxie.Lib.KeepBest

/-!
# Settings for an image

A value of a setting may start with an image name or a group and a comma.  The driver
(`process_util.c`) and the DLL (`config.c`) have each their own copy of the functions that
match the image and select a value; here is what the copies have in common, under the names
they share.
-/

namespace Sandboxie.Image

/-- `,` -/
abbrev comma : WChar := ','.toNat
/-- `!` -/
abbrev bang : WChar := '!'.toNat
/-- `<` -/
abbrev less : WChar := '<'.toNat

/-- The level of a value that has none, a `ULONG`. -/
abbrev unset : Nat := 2 ^ 32 - 1

/-- What a side does when it matches an image: how it expands a pattern, and what
`Pattern_Match` says for a pattern with a hex part, which the sides read with different
functions. -/
structure Side where
  towlower : WChar → WChar
  expand : List WChar → Option (List WChar)
  hexMatch : Pattern → List WChar → Bool

def patternMatch (side : Side) (pat : Pattern) (string : List WChar) : Bool :=
  if pat.Plain then decide (Pattern.matchX pat string (string.length + 2) ≠ some 0)
  else side.hexMatch pat string

def matchText (side : Side) (text testStr : List WChar) : Bool :=
  patternMatch side (Pattern.create side.towlower text true 0) (testStr.map side.towlower)

def items (list : List WChar) : List (List WChar) := (list.splitOn comma).filter (· ≠ [])

/-- The list of processes in a value of `ProcessGroup`, if it is about this group. -/
def groupList (side : Side) (group value : List WChar) : Option (List WChar) :=
  if value.length ≤ group.length + 1 then none
  else if Text.sameNoCase side.towlower (value.take group.length) group = false then none
  else if value[group.length]? ≠ some comma then none
  else some (value.drop (group.length + 1))

/-- `MatchImageGroup`, with `deeper` for a group in the list. -/
def matchGroupWith (side : Side) (groups : List (List WChar)) (testStr : List WChar)
    (deeper : List WChar → Bool) (group : List WChar) : Bool :=
  groups.any fun value =>
    match groupList side group value with
    | none => false
    | some list => (items list).any fun item =>
      if item.head? = some less then deeper item
      else
        match side.expand item with
        | none => false
        | some expnd => matchText side expnd testStr

/-- `MatchImageGroup`: `left` is how much deeper it may go. -/
def matchImageGroup (side : Side) (groups : List (List WChar)) (testStr : List WChar) :
    Nat → List WChar → Bool
  | 0 => matchGroupWith side groups testStr fun _ => false
  | left + 1 => matchGroupWith side groups testStr (matchImageGroup side groups testStr left)

/-- `MatchImage` for a pattern in a value, at depth 1. -/
def matchImage (side : Side) (groups : List (List WChar)) (patStr testStr : List WChar) : Bool :=
  match side.expand patStr with
  | none => false
  | some expnd =>
    if patStr.head? = some less then matchImageGroup side groups testStr 4 expnd
    else matchText side expnd testStr

def nonEmpty (value : List WChar) : Option (List WChar) := if value = [] then none else some value

/-- What stands before the comma of a value: whether it starts with an exclamation mark, and
the image without it. -/
def imagePart (value : List WChar) : Bool × List WChar :=
  let front := value.takeWhile (· ≠ comma)
  if front.head? = some bang then (true, front.drop 1) else (false, front)

/-- `MatchImageAndGetValue`: the value behind the image, if it applies, and the level. -/
def matchImageAndGetValue (matchImage : List WChar → Bool) (globalDefault : Nat)
    (value : List WChar) (level : Nat) : Option (List WChar) × Nat :=
  if comma ∈ value then
    let (inv, patStr) := imagePart value
    let rest := (value.dropWhile (· ≠ comma)).drop 1
    if patStr = [] then (nonEmpty rest, level)
    else if matchImage patStr = inv then (none, level)
    else (nonEmpty rest, if patStr = [Pattern.star] then 2 else if inv then 1 else 0)
  else (nonEmpty value, globalDefault)

/-- The loop over the values: what was found, and its level. -/
def selectLoop (getValue : List WChar → Nat → Option (List WChar) × Nat)
    (values : List (List WChar)) : Option (List WChar) × Nat :=
  values.foldl
    (fun found value =>
      match getValue value unset with
      | (none, _) => found
      | (some foundValue, level) =>
        if found.2 < level then found else (some foundValue, level))
    (none, unset)

/-! ### The selection -/

abbrev Applying := Nat × List WChar

def applying (getValue : List WChar → Nat → Option (List WChar) × Nat)
    (values : List (List WChar)) : List Applying :=
  values.filterMap fun value => (getValue value unset).1.map ((getValue value unset).2, ·)

def closer (a b : Applying) : Bool := decide (a.1 ≤ b.1)

def lastOf (p : Nat → Bool) (cands : List Applying) : Option (List WChar) :=
  (cands.filter fun c => p c.1).getLast?.map Prod.snd

theorem ranked_closer : KeepBest.Ranked closer fun c : Applying => -(c.1 : Int) := by
  refine ⟨fun h => ?_, fun h => ?_⟩
  · exact decide_eq_true (by omega)
  · exact decide_eq_false (by omega)

theorem selectLoop_eq {getValue : List WChar → Nat → Option (List WChar) × Nat}
    {values : List (List WChar)}
    (hlevel : ∀ value ∈ values, (getValue value unset).2 ≤ unset) :
    selectLoop getValue values =
      match KeepBest.keepBest closer (applying getValue values) with
      | none => (none, unset)
      | some c => (some c.2, c.1) := by
  induction values using List.reverseRecOn with
  | nil => rfl
  | append_singleton values value ih =>
    have ih := ih fun v hv => hlevel v (List.mem_append_left _ hv)
    have hle := hlevel value (List.mem_append_right _ List.mem_cons_self)
    rw [selectLoop, List.foldl_append, ← selectLoop, ih]
    have happly : applying getValue (values ++ [value]) = applying getValue values ++
        ((getValue value unset).1.map ((getValue value unset).2, ·)).toList := by
      rw [applying, List.filterMap_append]
      rfl
    rw [happly]
    cases hv : getValue value unset with
    | mk found level =>
      rw [hv] at hle
      cases found with
      | none =>
        simp [hv]
      | some foundValue =>
        show _ = match KeepBest.keepBest closer (applying getValue values ++ [(level, foundValue)])
          with
          | none => _
          | some c => _
        rw [KeepBest.keepBest_concat]
        cases hkeep : KeepBest.keepBest closer (applying getValue values) with
        | none => simp [KeepBest.step, hv, Nat.not_lt.mpr hle]
        | some c =>
          by_cases hlt : c.1 < level
          · simp [KeepBest.step, hv, closer, hlt, Nat.not_le.mpr hlt]
          · simp [KeepBest.step, hv, closer, hlt, Nat.not_lt.mp hlt]

theorem keepBest_closer {cands : List Applying} {c : Applying}
    (h : KeepBest.keepBest closer cands = some c) :
    c ∈ cands ∧ (∀ a ∈ cands, c.1 ≤ a.1) ∧
      lastOf (fun level => decide (level ≤ c.1)) cands = some c.2 := by
  refine ⟨KeepBest.mem_of_keepBest h, fun a ha => ?_, ?_⟩
  · have hrank := ranked_closer.rank_le h a ha
    omega
  have hties : ∀ {a b : Applying}, -(a.1 : Int) = -(b.1 : Int) → closer a b = true := by
    intro a b heq
    exact decide_eq_true (by omega)
  have hlast := ranked_closer.getLast?_of_keepBest hties h
  have hsame : (cands.filter fun a => decide (-(c.1 : Int) ≤ -(a.1 : Int))) =
      cands.filter fun a => decide (a.1 ≤ c.1) := by
    refine List.filter_congr fun a _ => decide_eq_decide.mpr ?_
    omega
  rw [hsame] at hlast
  rw [lastOf, hlast]
  rfl

end Sandboxie.Image
