import Mathlib.Data.List.Induction
import Mathlib.Data.List.TakeWhile
import Sandboxie.Common.Text

/-!
# The target of a relative link

`File_CanonizePath` of `core/dll/file_dir.c`, index by index.  An access outside of the counted
paths or of the buffer gives `none`, and `fuel` is a number of turns of the loop, which need not
end.  The memory for the buffer is there, and the lengths are far below what a `ULONG` holds.
-/

namespace Sandboxie.CanonizePath

open Text List Option

abbrev backslash : WChar := 92
abbrev dot : WChar := 46

def isSep (c : WChar) : Bool := c == backslash || c == 0

/-! ### The code -/

def stripLen (path : List WChar) : Nat → Option Nat
  | 0 => none
  | n + 1 => path[n]?.bind fun c => if c = backslash then stripLen path n else some (n + 1)

def write (buf : List WChar) (start : Nat) (cs : List WChar) : Option (List WChar) :=
  if start + cs.length ≤ buf.length then
    some (buf.take start ++ cs ++ buf.drop (start + cs.length))
  else none

/-- The loop that goes back to a backslash, from behind the index; `j` is never below zero, and
below zero it is outside of the buffer. -/
def popLoop : Nat → List WChar → Option (List WChar × Nat)
  | 0, _ => none
  | j + 1, buf =>
    buf[j]?.bind fun c => (write buf j [0]).bind fun buf =>
      if c = backslash then some (buf, j) else popLoop j buf

def addSeparator (buf : List WChar) (absLen : Nat) : Option (List WChar × Nat) :=
  if absLen > 0 then
    buf[absLen - 1]?.bind fun c =>
      if c ≠ backslash then (write buf absLen [backslash]).map fun buf => (buf, absLen + 1)
      else some (buf, absLen)
  else some (buf, absLen)

section Loop

variable (rel : List WChar)

def isDotDot (i : Nat) : Option Bool :=
  rel[i]?.bind fun c =>
    if c ≠ dot then some false
    else rel[i + 1]?.bind fun c => if c ≠ dot then some false else rel[i + 2]?.map isSep

def isDot (i : Nat) : Option Bool :=
  rel[i]?.bind fun c => if c ≠ dot then some false else rel[i + 1]?.map isSep

def nameEnd (i : Nat) : Nat := i + ((rel.drop i).takeWhile fun c => !isSep c).length

/-- The branch for a component that is a name. -/
def addName (i : Nat) (buf : List WChar) (absLen : Nat) : Option (Nat × List WChar × Nat) :=
  let j := nameEnd rel i
  (addSeparator buf absLen).bind fun (buf, absLen) =>
    (write buf absLen ((rel.drop i).take (j - i))).bind fun buf =>
      (write buf (absLen + j - i) [0]).bind fun buf =>
        rel[j]?.map fun c => (j + if c = backslash then 1 else 0, buf, absLen + (j - i))

/-- A turn of the loop: the new `i`, the buffer and `abs_path_len`. -/
def turn (i : Nat) (buf : List WChar) (absLen : Nat) : Option (Nat × List WChar × Nat) :=
  (isDotDot rel i).bind fun dotDot =>
    if dotDot then (popLoop absLen buf).map fun r => (i + 3, r)
    else (isDot rel i).bind fun isDot =>
      if isDot then some (i + 2, buf, absLen) else addName rel i buf absLen

def loop : Nat → Nat → List WChar → Nat → Option (List WChar)
  | 0, _, _, _ => none
  | fuel + 1, i, buf, absLen =>
    if i < rel.length then
      (turn rel i buf absLen).bind fun (i, buf, absLen) => loop fuel i buf absLen
    else some buf

end Loop

/-- `File_CanonizePath`: the string in the buffer, which is full of `garbage` at first.  There is no
null in the absolute path. -/
def canonizePath (garbage : Nat → WChar) (fuel : Nat) (abs rel : List WChar) :
    Option (List WChar) :=
  (stripLen abs abs.length).bind fun absLen =>
    (write ((List.range (absLen + rel.length + 1)).map garbage) 0 (abs.take absLen)).bind fun buf =>
      (write buf absLen [0]).bind fun buf => (loop rel fuel 0 buf absLen).map cut

/-! ### The loop on texts -/

def popText (t : List WChar) : Option (List WChar) :=
  if backslash ∈ t then some (t.reverse.dropWhile (· ≠ backslash)).tail.reverse else none

def withSeparator (t : List WChar) : List WChar :=
  if t ≠ [] ∧ t.getLast? ≠ some backslash then t ++ [backslash] else t

def applyText (t c : List WChar) : Option (List WChar) :=
  if c = [dot, dot] then popText t
  else if c = [dot] then some t
  else some (withSeparator t ++ c)

/-- A turn of the loop: the text and what is left of the target.  Behind a null that ends a name
there is no way out of the loop. -/
def turnText (t rel : List WChar) : Option (List WChar × List WChar) :=
  let c := rel.takeWhile fun c => !isSep c
  match rel.dropWhile fun c => !isSep c with
  | [] => none
  | s :: more =>
    if s = backslash ∨ c = [dot, dot] ∨ c = [dot] then (applyText t c).map fun t => (t, more)
    else none

def runText : Nat → List WChar → List WChar → Option (List WChar)
  | 0, _, _ => none
  | fuel + 1, t, rel =>
    if rel ≠ [] then (turnText t rel).bind fun (t, rel) => runText fuel t rel else some t

/-! ### The components of the target -/

section Target

variable {rel : List WChar} {i : Nat} {c more : List WChar} {s : WChar}

theorem getElem?_of_drop {r : List WChar} (h : rel.drop i = r) (k : Nat) : rel[i + k]? = r[k]? := by
  rw [← h, getElem?_drop]

theorem isDotDot_eq (h : rel.drop i = c ++ s :: more) (hc : ∀ x ∈ c, isSep x = false)
    (hs : isSep s = true) : isDotDot rel i = some (decide (c = [dot, dot])) := by
  have hat := getElem?_of_drop h
  have hdot : s ≠ dot := fun heq => by rw [heq] at hs; cases hs
  rw [isDotDot, show rel[i]? = _ from hat 0, hat 1, hat 2]
  match c, hc with
  | [], _ => simp [hdot]
  | [x], _ =>
    by_cases hx : x = dot
    · simp [hx, hdot]
    · simp [hx]
  | [x, y], _ =>
    by_cases hx : x = dot
    · by_cases hy : y = dot
      · simp [hx, hy, hs]
      · simp [hx, hy]
    · simp [hx]
  | x :: y :: z :: c, hc =>
    have hz : isSep z = false := hc z (by simp)
    by_cases hx : x = dot
    · by_cases hy : y = dot
      · simp [hx, hy, hz]
      · simp [hx, hy]
    · simp [hx]

theorem isDot_eq (h : rel.drop i = c ++ s :: more) (hc : ∀ x ∈ c, isSep x = false)
    (hs : isSep s = true) : isDot rel i = some (decide (c = [dot])) := by
  have hat := getElem?_of_drop h
  have hdot : s ≠ dot := fun heq => by rw [heq] at hs; cases hs
  rw [isDot, show rel[i]? = _ from hat 0, hat 1]
  match c, hc with
  | [], _ => simp [hdot]
  | [x], _ =>
    by_cases hx : x = dot
    · simp [hx, hs]
    · simp [hx]
  | x :: y :: c, hc =>
    have hy : isSep y = false := hc y (by simp)
    by_cases hx : x = dot
    · simp [hx, hy]
    · simp [hx]

theorem isSep_of_isDotDot (h : isDotDot rel i = some true) : ∃ s ∈ rel.drop i, isSep s = true := by
  simp only [isDotDot, bind_eq_some_iff] at h
  obtain ⟨c, -, h⟩ := h
  split at h
  · cases h
  · obtain ⟨c', -, h⟩ := bind_eq_some_iff.mp h
    split at h
    · cases h
    · obtain ⟨s, hs, hsep⟩ := map_eq_some_iff.mp h
      rw [← getElem?_drop] at hs
      exact ⟨s, mem_of_getElem? hs, hsep⟩

theorem isSep_of_isDot (h : isDot rel i = some true) : ∃ s ∈ rel.drop i, isSep s = true := by
  simp only [isDot, bind_eq_some_iff] at h
  obtain ⟨c, -, h⟩ := h
  split at h
  · cases h
  · obtain ⟨s, hs, hsep⟩ := map_eq_some_iff.mp h
    rw [← getElem?_drop] at hs
    exact ⟨s, mem_of_getElem? hs, hsep⟩

theorem takeWhile_component (hc : ∀ x ∈ c, isSep x = false) (hs : isSep s = true) :
    (c ++ s :: more).takeWhile (fun x => !isSep x) = c ∧
      (c ++ s :: more).dropWhile (fun x => !isSep x) = s :: more := by
  have hall : ∀ x ∈ c, (!isSep x) = true := fun x hx => by rw [hc x hx]; rfl
  have hstop : ¬(!isSep s) = true := by rw [hs]; decide
  rw [takeWhile_append_of_pos hall, dropWhile_append_of_pos hall,
    takeWhile_cons, dropWhile_cons, if_neg hstop, if_neg hstop, append_nil]
  exact ⟨rfl, rfl⟩

theorem exists_component (r : List WChar) :
    (∀ x ∈ r, isSep x = false) ∨
      ∃ c s more, r = c ++ s :: more ∧ (∀ x ∈ c, isSep x = false) ∧ isSep s = true := by
  induction r with
  | nil => exact Or.inl fun x hx => nomatch hx
  | cons x r ih =>
    by_cases hx : isSep x = true
    · exact Or.inr ⟨[], x, r, rfl, fun y hy => (nomatch hy), hx⟩
    · have hx := Bool.not_eq_true _ ▸ hx
      rcases ih with hall | ⟨c, s, more, rfl, hc, hs⟩
      · exact Or.inl (forall_mem_cons.mpr ⟨hx, hall⟩)
      · exact Or.inr ⟨x :: c, s, more, rfl, forall_mem_cons.mpr ⟨hx, hc⟩, hs⟩

end Target

/-! ### The buffer -/

theorem write_end {t rest cs : List WChar} (h : cs.length ≤ rest.length) :
    write (t ++ rest) t.length cs = some (t ++ cs ++ rest.drop cs.length) := by
  have hroom : t.length + cs.length ≤ (t ++ rest).length := by
    rw [length_append]
    omega
  rw [write, if_pos hroom, take_left, drop_length_add_append]

structure Holds (size : Nat) (t buf : List WChar) : Prop where
  text : ∃ rest, buf = t ++ 0 :: rest
  noNull : 0 ∉ t
  size : buf.length = size

theorem write_text {size : Nat} {t rest cs : List WChar} (h : (t ++ rest).length = size)
    (hroom : t.length + cs.length < size) (hcs : 0 ∉ t ++ cs) :
    ∃ buf, (write (t ++ rest) t.length cs).bind (fun buf => write buf (t.length + cs.length) [0]) =
      some buf ∧ Holds size (t ++ cs) buf := by
  rw [length_append] at h
  have hrest : (rest.drop cs.length).length = rest.length - cs.length := length_drop
  refine ⟨t ++ cs ++ [0] ++ (rest.drop cs.length).drop 1, ?_, ⟨⟨_, append_assoc ..⟩, hcs, ?_⟩⟩
  · rw [write_end (by omega), bind_some, ← length_append,
      write_end (by rw [length_singleton]; omega), length_singleton]
  · rw [length_append, length_append, length_append, length_drop,
      length_singleton, hrest]
    omega

theorem addSeparator_eq {size : Nat} {t buf : List WChar} (h : Holds size t buf) :
    ∃ rest, addSeparator buf t.length = some (withSeparator t ++ rest, (withSeparator t).length) ∧
      (withSeparator t ++ rest).length = size := by
  obtain ⟨⟨rest, rfl⟩, -, hsize⟩ := h
  by_cases ht : t = []
  · subst ht
    exact ⟨0 :: rest, rfl, hsize⟩
  have hpos : 0 < t.length := length_pos_iff.mpr ht
  have hlast : (t ++ 0 :: rest)[t.length - 1]? = t.getLast? := by
    rw [getElem?_append_left (by omega), getLast?_eq_getElem?]
  obtain ⟨c, hc⟩ := isSome_iff_exists.mp (getLast?_isSome.mpr ht)
  rw [addSeparator, if_pos hpos, hlast, hc, bind_some, withSeparator, hc]
  by_cases hsep : c = backslash
  · rw [if_neg (by simp [hsep]), if_neg (by simp [hsep])]
    exact ⟨0 :: rest, rfl, hsize⟩
  · rw [if_pos hsep, if_pos (by simp [hsep, ht]), write_end (by simp)]
    refine ⟨rest, ?_, ?_⟩
    · simp
    · rw [← hsize]
      simp

theorem popText_append {t n : List WChar} (hn : backslash ∉ n) :
    popText (t ++ backslash :: n) = some t := by
  have hall : ∀ x ∈ n.reverse, decide (x ≠ backslash) = true := fun x hx =>
    decide_eq_true fun heq => hn (heq ▸ mem_reverse.mp hx)
  rw [popText, if_pos (by simp)]
  simp only [reverse_append, reverse_cons, append_assoc]
  rw [dropWhile_append_of_pos hall]
  simp

theorem popText_concat {t : List WChar} {c : WChar} (hc : c ≠ backslash) :
    popText (t ++ [c]) = popText t := by
  simp only [popText, mem_append, mem_singleton, Ne.symm hc, or_false,
    reverse_append, reverse_singleton, singleton_append]
  rw [dropWhile_cons_of_pos (by simpa using hc)]

theorem popLoop_eq {size : Nat} {t : List WChar} : ∀ {buf : List WChar}, Holds size t buf →
    match popText t with
    | none => popLoop t.length buf = none
    | some t' => ∃ buf', popLoop t.length buf = some (buf', t'.length) ∧ Holds size t' buf' := by
  induction t using List.reverseRecOn with
  | nil => exact fun {buf} _ => rfl
  | append_singleton t c ih =>
    intro buf h
    obtain ⟨⟨rest, rfl⟩, hnull, hsize⟩ := h
    have hcell : (t ++ [c] ++ 0 :: rest)[t.length]? = some c := by simp
    have hwrite : write (t ++ [c] ++ 0 :: rest) t.length [0] = some (t ++ 0 :: 0 :: rest) := by
      rw [append_assoc, write_end (by simp)]
      simp
    have hholds : Holds size t (t ++ 0 :: 0 :: rest) :=
      ⟨⟨_, rfl⟩, fun hmem => hnull (mem_append_left _ hmem), by rw [← hsize]; simp⟩
    have hlen : (t ++ [c]).length = t.length + 1 := length_append
    rw [hlen, popLoop, hcell, bind_some, hwrite, bind_some]
    by_cases hc : c = backslash
    · subst hc
      rw [popText_append (not_mem_nil), if_pos rfl]
      exact ⟨_, rfl, hholds⟩
    · rw [if_neg hc]
      rw [popText_concat hc]
      exact ih hholds

/-! ### The loop is the one on texts -/

section Refines

variable {rel t buf : List WChar} {i size : Nat} {c more : List WChar} {s : WChar}

theorem nameEnd_eq (hrel : rel.drop i = c ++ s :: more)
    (hc : ∀ x ∈ c, isSep x = false) (hs : isSep s = true) : nameEnd rel i = i + c.length := by
  rw [nameEnd, hrel, (takeWhile_component hc hs).1]

theorem getElem?_nameEnd (hrel : rel.drop i = c ++ s :: more) :
    rel[i + c.length]? = some s := by
  rw [getElem?_of_drop hrel, getElem?_append_right (Nat.le_refl _), Nat.sub_self]
  rfl

theorem length_withSeparator_le (t : List WChar) : (withSeparator t).length ≤ t.length + 1 := by
  rw [withSeparator]
  split
  · exact Nat.le_of_eq length_append
  · exact Nat.le_succ _

theorem not_mem_withSeparator (h : 0 ∉ t) : 0 ∉ withSeparator t := by
  rw [withSeparator]
  split
  · simpa using h
  · exact h

theorem length_popText_le {t t' : List WChar} (h : popText t = some t') : t'.length ≤ t.length := by
  rw [popText] at h
  split at h
  · cases h
    rw [length_reverse, length_tail]
    have hle := (dropWhile_suffix (fun x => decide (x ≠ backslash))
      (l := t.reverse)).length_le
    rw [length_reverse] at hle
    omega
  · cases h

theorem addName_eq (h : Holds size t buf)
    (hroom : t.length + 1 + c.length < size) (hrel : rel.drop i = c ++ backslash :: more)
    (hc : ∀ x ∈ c, isSep x = false) :
    ∃ buf', addName rel i buf t.length =
        some (i + c.length + 1, buf', (withSeparator t ++ c).length) ∧
      Holds size (withSeparator t ++ c) buf' := by
  obtain ⟨rest, hsep, hsize⟩ := addSeparator_eq h
  have hle := length_withSeparator_le t
  have hnull : 0 ∉ withSeparator t ++ c := by
    rw [mem_append, not_or]
    exact ⟨not_mem_withSeparator h.noNull, fun hmem => by cases hc 0 hmem⟩
  obtain ⟨buf', hwrite, hholds⟩ := write_text hsize (by omega) hnull
  have hname : (rel.drop i).take c.length = c := by rw [hrel, take_left]
  refine ⟨buf', ?_, hholds⟩
  obtain ⟨buf₁, hwrite₁, hwrite₂⟩ := bind_eq_some_iff.mp hwrite
  have hindex : (withSeparator t).length + (i + c.length) - i =
      (withSeparator t).length + c.length := by omega
  rw [addName, nameEnd_eq hrel hc rfl, hsep]
  rw [bind_some]
  dsimp only
  rw [Nat.add_sub_cancel_left, hname, hwrite₁, bind_some, hindex, hwrite₂, bind_some,
    getElem?_nameEnd hrel, map_some, length_append, if_pos rfl]

theorem addName_null {absLen : Nat} {r : Nat × List WChar × Nat}
    (hrel : rel.drop i = c ++ 0 :: more) (hc : ∀ x ∈ c, isSep x = false)
    (h : addName rel i buf absLen = some r) : r.1 = i + c.length ∧ rel[r.1]? = some 0 := by
  rw [addName, nameEnd_eq hrel hc rfl] at h
  obtain ⟨⟨buf₁, absLen₁⟩, -, h⟩ := bind_eq_some_iff.mp h
  obtain ⟨buf₂, -, h⟩ := bind_eq_some_iff.mp h
  obtain ⟨buf₃, -, h⟩ := bind_eq_some_iff.mp h
  rw [getElem?_nameEnd hrel, map_some] at h
  cases h
  exact ⟨rfl, getElem?_nameEnd hrel⟩

theorem addName_none (h : ∀ x ∈ rel.drop i, isSep x = false) (hi : i ≤ rel.length) (absLen : Nat) :
    addName rel i buf absLen = none := by
  have hend : nameEnd rel i = rel.length := by
    have hall : (rel.drop i).takeWhile (fun x => !isSep x) = rel.drop i :=
      takeWhile_eq_self_iff.mpr fun x hx => by rw [h x hx]; rfl
    rw [nameEnd, hall, length_drop]
    omega
  rw [addName, hend]
  simp only [getElem?_eq_none (Nat.le_refl rel.length), map_none, bind_fun_none]

/-- The text at the end of a turn and the target that is left, as an index. -/
structure Turned (n : Nat) (rel t buf : List WChar) (i : Nat) : Prop where
  holds : Holds (n + rel.length + 1) t buf
  room : t.length ≤ n + i
  le : i ≤ rel.length

/-- What comes of a turn that is none on texts: nothing, or the next component begins with a
null. -/
def Lost (rel : List WChar) : Option (Nat × List WChar × Nat) → Prop
  | none => True
  | some r => rel[r.1]? = some 0

theorem turn_component (hrel : rel.drop i = c ++ s :: more)
    (hc : ∀ x ∈ c, isSep x = false) (hs : isSep s = true) (absLen : Nat) :
    turn rel i buf absLen =
      if c = [dot, dot] then (popLoop absLen buf).map fun r => (i + 3, r)
      else if c = [dot] then some (i + 2, buf, absLen)
      else addName rel i buf absLen := by
  rw [turn, isDotDot_eq hrel hc hs, bind_some, isDot_eq hrel hc hs, bind_some]
  simp only [decide_eq_true_eq]

theorem turnText_component (hc : ∀ x ∈ c, isSep x = false) (hs : isSep s = true) :
    turnText t (c ++ s :: more) =
      if s = backslash ∨ c = [dot, dot] ∨ c = [dot] then (applyText t c).map fun t => (t, more)
      else none := by
  obtain ⟨htake, hdrop⟩ := @takeWhile_component c more s hc hs
  rw [turnText, hdrop, htake]

theorem turn_none (h : ∀ x ∈ rel.drop i, isSep x = false) (hi : i ≤ rel.length) (absLen : Nat) :
    turn rel i buf absLen = none := by
  have hno : ∀ s ∈ rel.drop i, ¬isSep s = true := fun s hs => by rw [h s hs]; decide
  rw [turn]
  cases hdots : isDotDot rel i with
  | none => rfl
  | some dots =>
    cases dots with
    | true =>
      obtain ⟨s, hmem, hsep⟩ := isSep_of_isDotDot hdots
      exact absurd hsep (hno s hmem)
    | false =>
      cases hdot : isDot rel i with
      | none => rfl
      | some single =>
        cases single with
        | true =>
          obtain ⟨s, hmem, hsep⟩ := isSep_of_isDot hdot
          exact absurd hsep (hno s hmem)
        | false => exact addName_none h hi absLen

theorem turn_refines {n : Nat} (h : Turned n rel t buf i) :
    match turnText t (rel.drop i) with
    | none => Lost rel (turn rel i buf t.length)
    | some (t', more) => ∃ i' buf', turn rel i buf t.length = some (i', buf', t'.length) ∧
        Turned n rel t' buf' i' ∧ rel.drop i' = more := by
  obtain hall | ⟨c, s, more, hrel, hc, hs⟩ := exists_component (rel.drop i)
  · have hdrop : (rel.drop i).dropWhile (fun x => !isSep x) = [] :=
      dropWhile_eq_nil_iff.mpr fun x hx => by rw [hall x hx]; rfl
    rw [turnText, hdrop, turn_none hall h.le]
    trivial
  · have hlen : i + c.length + 1 + more.length = rel.length := by
      have hdrop := congrArg List.length hrel
      have hle := h.le
      rw [length_drop, length_append, length_cons] at hdrop
      omega
    have hafter : rel.drop (i + c.length + 1) = more := by
      rw [Nat.add_assoc, ← drop_drop, hrel, drop_length_add_append]
      rfl
    have hroom := h.room
    rw [turn_component hrel hc hs, hrel, turnText_component hc hs, applyText]
    by_cases hdots : c = [dot, dot]
    · subst hdots
      rw [if_pos (Or.inr (Or.inl rfl)), if_pos rfl, if_pos rfl]
      have hpop := popLoop_eq h.holds
      cases ht' : popText t with
      | none =>
        rw [ht'] at hpop
        rw [hpop]
        trivial
      | some t' =>
        rw [ht'] at hpop
        obtain ⟨buf', hloop, hholds⟩ := hpop
        have hle := length_popText_le ht'
        exact ⟨i + 3, buf', by rw [hloop]; rfl,
          ⟨hholds, by omega, by simp only [length_cons, length_nil] at hlen; omega⟩,
          hafter⟩
    · rw [if_neg hdots, if_neg hdots]
      by_cases hdot : c = [dot]
      · subst hdot
        rw [if_pos (Or.inr (Or.inr rfl)), if_pos rfl, if_pos rfl]
        exact ⟨i + 2, buf, rfl,
          ⟨h.holds, by omega, by simp only [length_cons, length_nil] at hlen; omega⟩,
          hafter⟩
      · rw [if_neg hdot, if_neg hdot]
        by_cases hback : s = backslash
        · subst hback
          obtain ⟨buf', hname, hholds⟩ := addName_eq h.holds (by omega) hrel hc
          have hle := length_withSeparator_le t
          rw [if_pos (Or.inl rfl)]
          exact ⟨_, buf', hname, ⟨hholds, by rw [length_append]; omega, by omega⟩, hafter⟩
        · have hnull : s = 0 := by
            simp only [isSep, Bool.or_eq_true, beq_iff_eq] at hs
            exact hs.resolve_left hback
          subst hnull
          rw [if_neg (not_or.mpr ⟨hback, not_or.mpr ⟨hdots, hdot⟩⟩)]
          show Lost rel (addName rel i buf t.length)
          cases hname : addName rel i buf t.length with
          | none => trivial
          | some r => exact (addName_null hrel hc hname).2

theorem loop_null (h : rel[i]? = some 0) (fuel : Nat) :
    ∀ (buf : List WChar) (absLen : Nat), loop rel fuel i buf absLen = none := by
  have hi : i < rel.length := (List.getElem?_eq_some_iff.mp h).1
  have hrel : rel.drop i = [] ++ 0 :: rel.drop (i + 1) := by
    rw [List.drop_eq_getElem_cons hi, (List.getElem?_eq_some_iff.mp h).2]
    rfl
  induction fuel with
  | zero => exact fun buf absLen => rfl
  | succ fuel ih =>
    intro buf absLen
    rw [loop, if_pos hi, turn_component hrel (fun x hx => nomatch hx) rfl, if_neg (by decide),
      if_neg (by decide)]
    cases hname : addName rel i buf absLen with
    | none => rfl
    | some r =>
      obtain ⟨i', buf', absLen'⟩ := r
      have hsame : i' = i := (addName_null hrel (fun x hx => nomatch hx) hname).1
      subst hsame
      exact ih buf' absLen'

theorem loop_refines {n : Nat} (fuel : Nat) : ∀ {t buf : List WChar} {i : Nat},
    Turned n rel t buf i →
      (loop rel fuel i buf t.length).map cut = runText fuel t (rel.drop i) := by
  induction fuel with
  | zero => exact fun {t buf i} _ => rfl
  | succ fuel ih =>
    intro t buf i h
    rw [loop, runText]
    by_cases hi : i < rel.length
    · have hne : rel.drop i ≠ [] := by
        rw [ne_eq, drop_eq_nil_iff]
        omega
      rw [if_pos hi, if_pos hne]
      have hturn := turn_refines h
      cases ht : turnText t (rel.drop i) with
      | none =>
        rw [ht] at hturn
        cases hr : turn rel i buf t.length with
        | none => rfl
        | some r =>
          rw [hr] at hturn
          obtain ⟨i', buf', absLen'⟩ := r
          show Option.map cut (loop rel fuel i' buf' absLen') = none
          rw [loop_null hturn]
          rfl
      | some r =>
        rw [ht] at hturn
        obtain ⟨i', buf', hr, hturned, hdrop⟩ := hturn
        rw [hr, bind_some, bind_some]
        show Option.map cut (loop rel fuel i' buf' r.1.length) = runText fuel r.1 r.2
        rw [ih hturned, hdrop]
    · have hnil : rel.drop i = [] := drop_eq_nil_iff.mpr (by omega)
      rw [if_neg hi, if_neg (not_not.mpr hnil), map_some]
      obtain ⟨⟨rest, rfl⟩, hnull, -⟩ := h.holds
      rw [cut_append hnull _]

end Refines

end Sandboxie.CanonizePath
