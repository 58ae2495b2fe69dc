import Mathlib.Data.List.DropRight
import Sandboxie.Common.Text

/-!
# Scrambled short names

`File_ScrambleShortName` and `File_UnScrambleShortName` of `file_snapshots.c`.  In the directory
of a snapshot four characters of a short name are replaced with the bytes of the key of the
snapshot: the one in front of the dot and the three behind it, where spaces stand for what is
missing.  A name ends at its terminator, also one of 12 characters.

`scrambleShortName_iff` says which names come back and which are kept apart.  `.` and the space
are among the characters that a character can become, and `File_Scramble_Char` sees seven bits of
a character.
-/

namespace Sandboxie.Scramble

open Text List

/-! ### One character -/

/-- `reserved_ch`, in ascending order. -/
def reservedCh : List WChar := wide ['"', '*', '/', ':', '<', '>', '?', '\\', '|']

def maxCh : Nat := 0x7E - 9 - 0x20

/-- `File_Scramble_Char` leaves the character as it is. -/
def frozen (c : WChar) : Bool :=
  c % 0x80 < 0x20 || 0x7E ≤ c % 0x80 || reservedCh.contains (c % 0x80)

def squeeze (c : WChar) : Nat := reservedCh.foldr (fun ch u => if ch < u then u - 1 else u) c - 0x20

def spread (place : Nat) : WChar :=
  reservedCh.foldl (fun u ch => if ch ≤ u then u + 1 else u) (place + 0x20)

def shift (key : UInt8) : Nat := key.toNat % 0x80 % maxCh

/-- `File_Scramble_Char` -/
def scrambleChar (scram : Bool) (key : UInt8) (wValue : WChar) : WChar :=
  if frozen wValue then wValue
  else
    let key : Int := if scram then shift key else -shift key
    let uValue : Int := squeeze (wValue % 0x80) + key
    let uValue := if maxCh ≤ uValue then uValue - maxCh
      else if uValue < 0 then uValue + maxCh else uValue
    spread uValue.toNat

/-! ### Names -/

/-- `wcsrchr`: the last place of a character. -/
def wcsrchr (c : WChar) : List WChar → Option Nat
  | [] => none
  | d :: rest =>
    match wcsrchr c rest with
    | some i => some (i + 1)
    | none => if d = c then some 0 else none

def keyByte (scramKey : BitVec 32) (i : Nat) : UInt8 := UInt8.ofNat (scramKey.toNat / 2 ^ (8 * i))

def changeAround (scram : Bool) (scramKey : BitVec 32) (name : List WChar) (dotPos : Nat) :
    List WChar :=
  let name :=
    if 0 < dotPos then name.modify (dotPos - 1) (scrambleChar scram (keyByte scramKey 0)) else name
  [1, 2, 3].foldl (fun name i =>
    name.modify (dotPos + i) (scrambleChar scram (keyByte scramKey i))) name

/-- So many spaces behind a name; `none` when it gets too long. -/
def padShortName : Nat → List WChar → Option (List WChar)
  | 0, name => some name
  | n + 1, name => if 12 ≤ name.length then none else padShortName n (name ++ [32])

/-- A name with a dot, and the place of the dot; `none` when it gets too long. -/
def dotShortName (name : List WChar) : Option (List WChar × Nat) :=
  match wcsrchr 46 name with
  | some dotPos => some (name, dotPos)
  | none => if 12 ≤ name.length then none else some (name ++ [46], name.length)

/-- `File_ScrambleShortName`: the name of the new length.  The length is the old one when the
name gets too long. -/
def scrambleShortName (name : List WChar) (scramKey : BitVec 32) : List WChar :=
  match dotShortName name with
  | none => name
  | some (dotted, dotPos) =>
    match padShortName (dotPos + 4 - dotted.length) dotted with
    | none => name
    | some padded => changeAround true scramKey padded dotPos

def stripShortName (name : List WChar) : List WChar :=
  let name := name.rdropWhile (· = 32)
  if name.getLast? = some 46 then name.dropLast else name

/-- `File_UnScrambleShortName` -/
def unScrambleShortName (name : List WChar) (scramKey : BitVec 32) : List WChar :=
  match wcsrchr 46 name with
  | none => name
  | some dotPos => stripShortName (changeAround false scramKey name dotPos)

/-! ### Characters that come back -/

/-- What `File_Scramble_Char` sees of a character. -/
def seen (c : WChar) : WChar := if frozen c then c else c % 0x80

theorem spread_spec {place : Nat} (h : place < maxCh) :
    frozen (spread place) = false ∧ spread place < 0x80 ∧ squeeze (spread place) = place := by
  have hall : ∀ place < maxCh, frozen (spread place) = false ∧ spread place < 0x80 ∧
      squeeze (spread place) = place := by decide
  exact hall place h

variable {c : WChar}

theorem squeeze_spec (h : frozen c = false) :
    squeeze (c % 0x80) < maxCh ∧ spread (squeeze (c % 0x80)) = c % 0x80 := by
  have hall : ∀ u < 0x80, frozen u = false → squeeze u < maxCh ∧ spread (squeeze u) = u := by
    decide
  have hlt : c % 0x80 < 0x80 := Nat.mod_lt _ (by decide)
  refine hall (c % 0x80) hlt ?_
  rw [← h, frozen, frozen, Nat.mod_eq_of_lt hlt]

theorem shift_lt (key : UInt8) : shift key < maxCh := Nat.mod_lt _ (by decide)

theorem scrambleChar_frozen (h : frozen c = true) (scram : Bool) (key : UInt8) :
    scrambleChar scram key c = c := if_pos h

theorem scrambleChar_true (h : frozen c = false) (key : UInt8) :
    scrambleChar true key c = spread ((squeeze (c % 0x80) + shift key) % maxCh) := by
  have hplace := (squeeze_spec h).1
  have hshift := shift_lt key
  have hmax : maxCh = 85 := rfl
  unfold scrambleChar
  rw [if_neg (by rw [h]; decide)]
  simp only [if_true, hmax] at hplace hshift ⊢
  congr 1
  split
  · omega
  · omega

theorem scrambleChar_false (h : frozen c = false) (key : UInt8) :
    scrambleChar false key c =
      spread ((squeeze (c % 0x80) + (maxCh - shift key)) % maxCh) := by
  have hplace := (squeeze_spec h).1
  have hshift := shift_lt key
  have hmax : maxCh = 85 := rfl
  unfold scrambleChar
  rw [if_neg (by rw [h]; decide)]
  simp only [Bool.false_eq_true, if_false, hmax] at hplace hshift ⊢
  congr 1
  split
  · omega
  · split
    · omega
    · omega

theorem unscramble_scramble (key : UInt8) (c : WChar) :
    scrambleChar false key (scrambleChar true key c) = seen c := by
  unfold seen
  cases h : frozen c with
  | true =>
    rw [if_pos rfl, scrambleChar_frozen h, scrambleChar_frozen h]
  | false =>
    obtain ⟨hplace, hspread⟩ := squeeze_spec h
    have hlt : (squeeze (c % 0x80) + shift key) % maxCh < maxCh := Nat.mod_lt _ (by decide)
    obtain ⟨hfrozen, hlow, hsqueeze⟩ := spread_spec hlt
    have hshift := shift_lt key
    have hmax : maxCh = 85 := rfl
    rw [if_neg (by decide), scrambleChar_true h, scrambleChar_false hfrozen,
      Nat.mod_eq_of_lt hlow, hsqueeze]
    have hback : ((squeeze (c % 0x80) + shift key) % maxCh + (maxCh - shift key)) % maxCh =
        squeeze (c % 0x80) := by
      rw [hmax] at hplace hshift ⊢
      omega
    rw [hback, hspread]

theorem scrambleChar_seen (key : UInt8) (c : WChar) :
    scrambleChar true key (seen c) = scrambleChar true key c := by
  unfold seen
  cases h : frozen c with
  | true => rw [if_pos rfl]
  | false =>
    have hlow : frozen (c % 0x80) = false := by
      rw [← h, frozen, frozen, Nat.mod_mod]
    rw [if_neg (by decide), scrambleChar_true h, scrambleChar_true hlow, Nat.mod_mod]

theorem scrambleChar_inj {key : UInt8} {d : WChar} :
    scrambleChar true key c = scrambleChar true key d ↔ seen c = seen d := by
  refine ⟨fun h => ?_, fun h => ?_⟩
  · rw [← unscramble_scramble key c, ← unscramble_scramble key d, h]
  · rw [← scrambleChar_seen key c, ← scrambleChar_seen key d, h]

/-! ### The parts of a name -/

theorem wcsrchr_eq_none {text : List WChar} (h : c ∉ text) : wcsrchr c text = none := by
  induction text with
  | nil => rfl
  | cons d rest ih =>
    obtain ⟨hne, hrest⟩ := not_or.mp (mt mem_cons.mpr h)
    rw [wcsrchr, ih hrest]
    exact if_neg fun heq => hne heq.symm

theorem wcsrchr_append (front : List WChar) {rest : List WChar} (h : c ∉ rest) :
    wcsrchr c (front ++ c :: rest) = some front.length := by
  induction front with
  | nil =>
    rw [nil_append, wcsrchr, wcsrchr_eq_none h]
    exact if_pos rfl
  | cons d front ih =>
    rw [cons_append, wcsrchr, ih]
    rfl

theorem modify_append_add (front rest : List WChar) (i : Nat) (f : WChar → WChar) :
    (front ++ rest).modify (front.length + i) f = front ++ rest.modify i f := by
  induction front with
  | nil => rw [nil_append, nil_append, length_nil, Nat.zero_add]
  | cons c front ih =>
    have hplace : (c :: front).length + i = front.length + i + 1 := by
      rw [length_cons]
      omega
    rw [cons_append, hplace, modify_succ_cons, ih]
    rfl

def changeLast (f : WChar → WChar) (text : List WChar) : List WChar :=
  text.modify (text.length - 1) f

@[simp] theorem changeLast_nil (f : WChar → WChar) : changeLast f [] = [] := rfl

@[simp] theorem changeLast_concat (f : WChar → WChar) (text : List WChar) (c : WChar) :
    changeLast f (text ++ [c]) = text ++ [f c] := by
  have hlen : (text ++ [c]).length - 1 = text.length + 0 := by
    rw [length_append, length_singleton]
    omega
  rw [changeLast, hlen, modify_append_add]
  rfl

@[simp] theorem length_changeLast (f : WChar → WChar) (text : List WChar) :
    (changeLast f text).length = text.length := length_modify _ _ _

theorem changeLast_changeLast (f g : WChar → WChar) (text : List WChar) :
    changeLast f (changeLast g text) = changeLast (fun c => f (g c)) text := by
  rcases eq_nil_or_concat text with rfl | ⟨init, c, rfl⟩
  · rfl
  · rw [concat_eq_append, changeLast_concat, changeLast_concat, changeLast_concat]

theorem changeLast_eq_self {f : WChar → WChar} {text : List WChar} :
    changeLast f text = text ↔ ∀ c ∈ text.getLast?, f c = c := by
  rcases eq_nil_or_concat text with rfl | ⟨init, c, rfl⟩
  · exact iff_of_true rfl nofun
  · rw [concat_eq_append, changeLast_concat, append_cancel_left_eq,
      singleton_inj, getLast?_concat]
    exact ⟨fun h d hd => Option.some.inj hd ▸ h, fun h => h c rfl⟩

theorem changeLast_inj {f g : WChar → WChar} (hfg : ∀ c d, f c = f d ↔ g c = g d)
    {s t : List WChar} : changeLast f s = changeLast f t ↔ changeLast g s = changeLast g t := by
  rcases eq_nil_or_concat s with rfl | ⟨init, c, rfl⟩
  · rw [changeLast_nil, changeLast_nil, eq_comm, eq_comm (a := []), ← length_eq_zero_iff,
      ← length_eq_zero_iff, length_changeLast, length_changeLast]
  · rcases eq_nil_or_concat t with rfl | ⟨init', d, rfl⟩
    · rw [changeLast_nil, changeLast_nil, ← length_eq_zero_iff, ← length_eq_zero_iff,
        length_changeLast, length_changeLast]
    · rw [concat_eq_append, concat_eq_append, changeLast_concat, changeLast_concat,
        changeLast_concat, changeLast_concat, append_singleton_inj,
        append_singleton_inj, hfg]

theorem padShortName_eq : ∀ (n : Nat) {name : List WChar}, name.length + n ≤ 12 →
    padShortName n name = some (name ++ List.replicate n 32) := by
  intro n
  induction n with
  | zero => exact fun _ => by rw [padShortName, replicate_zero, append_nil]
  | succ n ih =>
    intro name h
    have hlen : (name ++ [32]).length + n ≤ 12 := by
      rw [length_append, length_singleton]
      omega
    rw [padShortName, if_neg (by omega), ih hlen, append_assoc, replicate_succ]
    rfl

theorem changeAround_append (scram : Bool) (scramKey : BitVec 32) (front rest : List WChar) :
    changeAround scram scramKey (front ++ rest) front.length =
      changeLast (scrambleChar scram (keyByte scramKey 0)) front ++
        [1, 2, 3].foldl (fun name i =>
          name.modify i (scrambleChar scram (keyByte scramKey i))) rest := by
  have hfront : ∀ f, (if 0 < front.length then (front ++ rest).modify (front.length - 1) f
      else front ++ rest) = changeLast f front ++ rest := by
    intro f
    rcases eq_nil_or_concat front with rfl | ⟨init, e, rfl⟩
    · rfl
    · have hlen : (init ++ [e]).length = init.length + 1 := by
        rw [length_append, length_singleton]
      rw [concat_eq_append, changeLast_concat, if_pos (by omega), hlen, Nat.add_sub_cancel,
        append_assoc, append_assoc]
      exact modify_append_add init _ 0 f
  unfold changeAround
  rw [hfront]
  have hlen := length_changeLast (scrambleChar scram (keyByte scramKey 0)) front
  rw [foldl_cons, foldl_cons, foldl_cons, foldl_nil, ← hlen,
    modify_append_add, modify_append_add, modify_append_add]
  rfl

theorem strip_space (name : List WChar) : stripShortName (name ++ [32]) = stripShortName name := by
  unfold stripShortName
  rw [rdropWhile_concat_pos _ _ _ (by decide)]

theorem strip_dot (name : List WChar) : stripShortName (name ++ [46]) = name := by
  unfold stripShortName
  rw [rdropWhile_concat_neg _ _ _ (by decide)]
  dsimp only
  rw [getLast?_concat, if_pos rfl, dropLast_concat]

theorem strip_other (name : List WChar) (hspace : c ≠ 32) (hdot : c ≠ 46) :
    stripShortName (name ++ [c]) = name ++ [c] := by
  unfold stripShortName
  rw [rdropWhile_concat_neg _ _ _ (by simpa using hspace)]
  dsimp only
  rw [getLast?_concat, if_neg fun h => hdot (Option.some.inj h)]

/-! ### Short names -/

structure ShortName where
  base : List WChar
  ext : List WChar
  base_le : base.length ≤ 8
  ext_le : ext.length ≤ 3
  ne : ∀ c ∈ base ++ ext, c ≠ 0 ∧ c ≠ 32 ∧ c ≠ 46

namespace ShortName

def text (n : ShortName) : List WChar := if n.ext = [] then n.base else n.base ++ 46 :: n.ext

def extAt (n : ShortName) (i : Nat) : WChar := n.ext.getD i 32

def seenText (n : ShortName) : List WChar :=
  changeLast seen n.base ++ [46, seen (n.extAt 0), seen (n.extAt 1), seen (n.extAt 2)]

/-- The characters that are replaced are seen as they are. -/
def Told (n : ShortName) : Prop :=
  (∀ c ∈ n.base.getLast?, seen c = c) ∧ ∀ c ∈ n.ext, seen c = c

variable (n : ShortName) (scramKey : BitVec 32)

def scrambledAt (i : Nat) : WChar := scrambleChar true (keyByte scramKey (i + 1)) (n.extAt i)

def NoDot : Prop :=
  n.scrambledAt scramKey 0 ≠ 46 ∧ n.scrambledAt scramKey 1 ≠ 46 ∧ n.scrambledAt scramKey 2 ≠ 46

/-- The last character in front of the dot stays as it is. -/
def KeepsBase : Prop := ∀ c ∈ n.base.getLast?, scrambleChar true (keyByte scramKey 0) c = c

/-- The space behind an extension of one character becomes a dot, and by chance the bytes of the
key bring back the rest. -/
def LuckyOne : Prop :=
  n.ext.length = 1 ∧ n.KeepsBase scramKey ∧ n.scrambledAt scramKey 1 = 46 ∧
    n.scrambledAt scramKey 2 ≠ 46 ∧
    scrambleChar false (keyByte scramKey 0) (n.scrambledAt scramKey 0) = n.extAt 0 ∧
    scrambleChar false (keyByte scramKey 1) (n.scrambledAt scramKey 2) = 32

/-- The same behind an extension of two characters. -/
def LuckyTwo : Prop :=
  n.ext.length = 2 ∧ n.KeepsBase scramKey ∧ n.scrambledAt scramKey 2 = 46 ∧
    n.scrambledAt scramKey 0 = n.extAt 0 ∧
    scrambleChar false (keyByte scramKey 0) (n.scrambledAt scramKey 1) = n.extAt 1

/-- **The name comes back**: its characters are seen and nothing behind the dot becomes a dot, or
there is luck. -/
def Survives : Prop :=
  n.NoDot scramKey ∧ n.Told ∨ n.LuckyOne scramKey ∨ n.LuckyTwo scramKey

variable {n scramKey}

theorem ext_ne {c : WChar} (h : c ∈ n.ext) : c ≠ 32 ∧ c ≠ 46 :=
  (n.ne c (mem_append_right _ h)).2

theorem dot_notin_base : 46 ∉ n.base := fun h => (n.ne 46 (mem_append_left _ h)).2.2 rfl

theorem dot_notin_ext : 46 ∉ n.ext := fun h => (ext_ne h).2 rfl

theorem ext_padded (n : ShortName) : n.ext ++ List.replicate (3 - n.ext.length) 32 =
    [n.extAt 0, n.extAt 1, n.extAt 2] := by
  have hle := n.ext_le
  unfold extAt
  generalize n.ext = ext at hle
  match ext with
  | [] => rfl
  | [a] => rfl
  | [a, b] => rfl
  | [a, b, c] => rfl
  | a :: b :: c :: d :: rest =>
    simp only [length_cons] at hle
    omega

theorem scramble_text (n : ShortName) (scramKey : BitVec 32) :
    scrambleShortName n.text scramKey =
      changeLast (scrambleChar true (keyByte scramKey 0)) n.base ++
        [46, n.scrambledAt scramKey 0, n.scrambledAt scramKey 1, n.scrambledAt scramKey 2] := by
  have hbase := n.base_le
  have hext := n.ext_le
  have hdot : dotShortName n.text = some (n.base ++ 46 :: n.ext, n.base.length) := by
    unfold dotShortName text
    by_cases h : n.ext = []
    · rw [if_pos h, wcsrchr_eq_none dot_notin_base, h]
      exact if_neg (by omega)
    · rw [if_neg h, wcsrchr_append n.base dot_notin_ext]
  have hlen : (n.base ++ 46 :: n.ext).length = n.base.length + 1 + n.ext.length := by
    rw [length_append, length_cons]
    omega
  have hpad : padShortName (n.base.length + 4 - (n.base ++ 46 :: n.ext).length)
      (n.base ++ 46 :: n.ext) = some (n.base ++ [46, n.extAt 0, n.extAt 1, n.extAt 2]) := by
    have hcount : n.base.length + 4 - (n.base ++ 46 :: n.ext).length = 3 - n.ext.length := by omega
    rw [hcount, padShortName_eq _ (by omega), append_assoc, cons_append, n.ext_padded]
  unfold scrambleShortName
  rw [hdot]
  dsimp only
  rw [hpad]
  exact changeAround_append true scramKey n.base _

theorem seenText_eq_iff {n' : ShortName} : scrambleShortName n.text scramKey =
    scrambleShortName n'.text scramKey ↔ n.seenText = n'.seenText := by
  have happend : ∀ (s t : List WChar) (a b c a' b' c' : WChar),
      s ++ [46, a, b, c] = t ++ [46, a', b', c'] ↔ s = t ∧ a = a' ∧ b = b' ∧ c = c' := by
    intro s t a b c a' b' c'
    refine ⟨fun h => ?_, fun h => by rw [h.1, h.2.1, h.2.2.1, h.2.2.2]⟩
    obtain ⟨hs, hrest⟩ := append_inj' h rfl
    simpa [hs] using hrest
  rw [scramble_text, scramble_text, seenText, seenText, happend, happend,
    changeLast_inj fun c d => scrambleChar_inj]
  simp only [scrambledAt, scrambleChar_inj]

/-! ### What comes back -/

theorem text_eq_iff {front l : List WChar} {z : WChar} (hlen : front.length = n.base.length) :
    front ++ z :: l = n.text ↔ front = n.base ∧ z = 46 ∧ l = n.ext ∧ l ≠ [] := by
  unfold text
  by_cases h : n.ext = []
  · rw [if_pos h, h]
    refine iff_of_false (fun heq => ?_) fun hand => hand.2.2.2 hand.2.2.1
    have hcount := congrArg List.length heq
    rw [length_append, length_cons] at hcount
    omega
  · rw [if_neg h]
    refine ⟨fun heq => ?_, fun hand => by rw [hand.1, hand.2.1, hand.2.2.1]⟩
    obtain ⟨hfront, hrest⟩ := append_inj heq hlen
    obtain ⟨hz, hl⟩ := List.cons.inj hrest
    exact ⟨hfront, hz, hl, hl ▸ h⟩

theorem ext_eq_one {a : WChar} : [a] = n.ext ↔ n.ext.length = 1 ∧ a = n.extAt 0 := by
  unfold extAt
  generalize n.ext = ext
  match ext with
  | [] => exact iff_of_false nofun nofun
  | [x] => simp
  | x :: y :: rest => simp

theorem ext_eq_two {a b : WChar} :
    [a, b] = n.ext ↔ n.ext.length = 2 ∧ a = n.extAt 0 ∧ b = n.extAt 1 := by
  unfold extAt
  generalize n.ext = ext
  match ext with
  | [] => exact iff_of_false nofun nofun
  | [x] => simp
  | [x, y] => simp
  | x :: y :: z :: rest => simp

theorem strip_padded (n : ShortName) :
    stripShortName (n.base ++ [46, n.extAt 0, n.extAt 1, n.extAt 2]) = n.text := by
  rw [← n.ext_padded]
  generalize 3 - n.ext.length = j
  induction j with
  | zero =>
    rw [replicate_zero, append_nil]
    unfold text
    by_cases h : n.ext = []
    · rw [if_pos h, h, strip_dot]
    · rw [if_neg h]
      obtain ⟨init, c, hc⟩ := (eq_nil_or_concat n.ext).resolve_left h
      rw [concat_eq_append] at hc
      obtain ⟨hspace, hdot⟩ := ext_ne (n := n) (c := c) (by rw [hc]; simp)
      rw [hc, ← cons_append, ← append_assoc]
      exact strip_other _ hspace hdot
  | succ j ih =>
    rw [replicate_succ', ← append_assoc, ← cons_append, ← append_assoc,
      strip_space]
    exact ih

theorem seen_padded (n : ShortName) : [seen (n.extAt 0), seen (n.extAt 1), seen (n.extAt 2)] =
    n.ext.map seen ++ List.replicate (3 - n.ext.length) 32 := by
  have hspace : seen 32 = 32 := by decide
  have hmap := congrArg (List.map seen) n.ext_padded
  rw [map_append, map_replicate, hspace] at hmap
  exact hmap.symm

theorem map_seen_eq_self {l : List WChar} : l.map seen = l ↔ ∀ c ∈ l, seen c = c := by
  have hid := @map_inj_left _ _ l seen id
  rw [map_id] at hid
  exact hid

theorem prefix_of_strip {name : List WChar} : stripShortName name <+: name := by
  unfold stripShortName
  dsimp only
  split
  · exact ( dropLast_prefix _).trans ( rdropWhile_prefix _ _)
  · exact rdropWhile_prefix _ _

theorem survives_of_noDot (h : n.NoDot scramKey) :
    unScrambleShortName (scrambleShortName n.text scramKey) scramKey = n.text ↔ n.Told := by
  obtain ⟨h0, h1, h2⟩ := h
  have hfind : wcsrchr 46 (scrambleShortName n.text scramKey) = some n.base.length := by
    rw [scramble_text, wcsrchr_append _ (by simp [h0.symm, h1.symm, h2.symm]), length_changeLast]
  have hback : unScrambleShortName (scrambleShortName n.text scramKey) scramKey =
      stripShortName n.seenText := by
    unfold unScrambleShortName
    rw [hfind]
    dsimp only
    have hlen := length_changeLast (scrambleChar true (keyByte scramKey 0)) n.base
    rw [scramble_text, ← hlen, changeAround_append, changeLast_changeLast, seenText]
    simp only [scrambledAt, unscramble_scramble, foldl_cons, foldl_nil,
      modify_succ_cons, modify_zero_cons]
  rw [hback, Told, ← changeLast_eq_self, ← map_seen_eq_self]
  refine ⟨fun heq => ?_, fun htold => ?_⟩
  · obtain ⟨rest, hrest⟩ := heq ▸ @prefix_of_strip n.seenText
    rw [seenText] at hrest
    have hlen := length_changeLast seen n.base
    unfold text at hrest
    by_cases h : n.ext = []
    · rw [if_pos h] at hrest
      rw [h]
      exact ⟨(append_inj hrest hlen.symm).1.symm, rfl⟩
    · rw [if_neg h, append_assoc] at hrest
      obtain ⟨hbase, hext⟩ := append_inj hrest hlen.symm
      rw [n.seen_padded, cons_append] at hext
      have hext' := (List.cons.inj hext).2
      exact ⟨hbase.symm, (append_inj hext' (length_map _).symm).1.symm⟩
  · rw [seenText, n.seen_padded, htold.1, htold.2, n.ext_padded]
    exact strip_padded n

theorem strip_behind (front l : List WChar) : stripShortName (front ++ 46 :: l) = front ∨
    ∃ l', stripShortName (front ++ 46 :: l) = front ++ 46 :: l' := by
  induction l using List.reverseRecOn with
  | nil => exact .inl (strip_dot front)
  | append_singleton l c ih =>
    rw [← cons_append, ← append_assoc]
    by_cases hspace : c = 32
    · rw [hspace, strip_space]
      exact ih
    · by_cases hdot : c = 46
      · rw [hdot, strip_dot]
        exact .inr ⟨l, rfl⟩
      · rw [strip_other _ hspace hdot, append_assoc]
        exact .inr ⟨l ++ [c], rfl⟩

theorem keepsBase_iff : changeLast (scrambleChar true (keyByte scramKey 0)) n.base = n.base ↔
    n.KeepsBase scramKey := changeLast_eq_self

theorem survives_of_dot_two (h : n.scrambledAt scramKey 2 = 46) :
    unScrambleShortName (scrambleShortName n.text scramKey) scramKey = n.text ↔
      n.LuckyTwo scramKey := by
  have hback : unScrambleShortName (scrambleShortName n.text scramKey) scramKey =
      changeLast (scrambleChar true (keyByte scramKey 0)) n.base ++ 46 ::
        [n.scrambledAt scramKey 0,
          scrambleChar false (keyByte scramKey 0) (n.scrambledAt scramKey 1)] := by
    rw [scramble_text, h]
    generalize changeLast (scrambleChar true (keyByte scramKey 0)) n.base = front
    generalize n.scrambledAt scramKey 0 = a
    generalize n.scrambledAt scramKey 1 = b
    have hsplit : front ++ [46, a, b, 46] = (front ++ [46, a] ++ [b]) ++ [46] := by simp
    unfold unScrambleShortName
    rw [hsplit, wcsrchr_append _ not_mem_nil]
    dsimp only
    rw [changeAround_append, changeLast_concat]
    exact (strip_dot _).trans (by simp)
  rw [hback, text_eq_iff (length_changeLast _ _), keepsBase_iff, ext_eq_two]
  refine ⟨?_, ?_⟩
  · rintro ⟨hbase, -, ⟨hlen, h0, h1⟩, -⟩
    exact ⟨hlen, hbase, h, h0, h1⟩
  · rintro ⟨hlen, hbase, -, h0, h1⟩
    exact ⟨hbase, rfl, ⟨hlen, h0, h1⟩, cons_ne_nil _ _⟩

theorem survives_of_dot_one (h : n.scrambledAt scramKey 1 = 46)
    (h2 : n.scrambledAt scramKey 2 ≠ 46) :
    unScrambleShortName (scrambleShortName n.text scramKey) scramKey = n.text ↔
      n.LuckyOne scramKey := by
  have hback : unScrambleShortName (scrambleShortName n.text scramKey) scramKey =
      stripShortName (changeLast (scrambleChar true (keyByte scramKey 0)) n.base ++ 46 ::
        [scrambleChar false (keyByte scramKey 0) (n.scrambledAt scramKey 0)] ++ [46] ++
          [scrambleChar false (keyByte scramKey 1) (n.scrambledAt scramKey 2)]) := by
    rw [scramble_text, h]
    generalize changeLast (scrambleChar true (keyByte scramKey 0)) n.base = front
    generalize n.scrambledAt scramKey 0 = a
    generalize n.scrambledAt scramKey 2 = c at h2 ⊢
    have hsplit : front ++ [46, a, 46, c] = (front ++ [46] ++ [a]) ++ 46 :: [c] := by simp
    unfold unScrambleShortName
    rw [hsplit, wcsrchr_append _ (by simpa using h2.symm)]
    dsimp only
    rw [changeAround_append, changeLast_concat]
    congr 1
    simp
  have hlen := length_changeLast (scrambleChar true (keyByte scramKey 0)) n.base
  rw [hback]
  by_cases hspace : scrambleChar false (keyByte scramKey 1) (n.scrambledAt scramKey 2) = 32
  · rw [hspace, strip_space, strip_dot, text_eq_iff hlen, keepsBase_iff, ext_eq_one]
    refine ⟨?_, ?_⟩
    · rintro ⟨hbase, -, ⟨hone, h0⟩, -⟩
      exact ⟨hone, hbase, h, h2, h0, hspace⟩
    · rintro ⟨hone, hbase, -, -, h0, -⟩
      exact ⟨hbase, rfl, ⟨hone, h0⟩, cons_ne_nil _ _⟩
  · refine iff_of_false (fun heq => ?_) fun hlucky => hspace hlucky.2.2.2.2.2
    -- the dot stays, and a name has no other one
    have hdot : ∀ l : List WChar, 46 ∈ l →
        changeLast (scrambleChar true (keyByte scramKey 0)) n.base ++ 46 :: l ≠ n.text :=
      fun l hl h' => dot_notin_ext (((text_eq_iff hlen).mp h').2.2.1 ▸ hl)
    by_cases hdot' : scrambleChar false (keyByte scramKey 1) (n.scrambledAt scramKey 2) = 46
    · rw [hdot', strip_dot, append_assoc, cons_append] at heq
      exact hdot _ (by simp) heq
    · rw [strip_other _ hspace hdot', append_assoc, append_assoc,
        cons_append] at heq
      exact hdot _ (by simp) heq

theorem survives_of_dot_zero (h : n.scrambledAt scramKey 0 = 46)
    (h1 : n.scrambledAt scramKey 1 ≠ 46) (h2 : n.scrambledAt scramKey 2 ≠ 46) :
    unScrambleShortName (scrambleShortName n.text scramKey) scramKey ≠ n.text := by
  have hlen := length_changeLast (scrambleChar true (keyByte scramKey 0)) n.base
  rw [scramble_text, h]
  generalize changeLast (scrambleChar true (keyByte scramKey 0)) n.base = front at hlen ⊢
  have hsplit : front ++ [46, 46, n.scrambledAt scramKey 1, n.scrambledAt scramKey 2] =
      (front ++ [46]) ++ 46 :: [n.scrambledAt scramKey 1, n.scrambledAt scramKey 2] := by simp
  unfold unScrambleShortName
  rw [hsplit, wcsrchr_append _ (by simp [h1.symm, h2.symm])]
  dsimp only
  rw [changeAround_append, changeLast_concat]
  intro heq
  rcases strip_behind (front ++ [scrambleChar false (keyByte scramKey 0) 46])
    [scrambleChar false (keyByte scramKey 1) (n.scrambledAt scramKey 1),
      scrambleChar false (keyByte scramKey 2) (n.scrambledAt scramKey 2)] with hstrip | ⟨l, hstrip⟩
  · have hone := hstrip.symm.trans heq
    exact ((text_eq_iff hlen).mp hone).2.2.2 rfl
  · have hmore := hstrip.symm.trans heq
    rw [append_assoc] at hmore
    have hext : 46 :: l = n.ext := ((text_eq_iff hlen).mp hmore).2.2.1
    exact dot_notin_ext (hext ▸ mem_cons_self)

/-- **Scrambling and back.**  A name comes back exactly when it survives, and two names become the
same exactly when the same is seen of them. -/
theorem scrambleShortName_iff (n : ShortName) (scramKey : BitVec 32) :
    (unScrambleShortName (scrambleShortName n.text scramKey) scramKey = n.text ↔
      n.Survives scramKey) ∧
    ∀ n' : ShortName,
      (scrambleShortName n.text scramKey = scrambleShortName n'.text scramKey →
        n.text = n'.text) ↔ (n.seenText = n'.seenText → n.text = n'.text) := by
  refine ⟨?_, fun n' => by rw [seenText_eq_iff]⟩
  by_cases h2 : n.scrambledAt scramKey 2 = 46
  · rw [survives_of_dot_two h2]
    refine ⟨fun h => .inr (.inr h), ?_⟩
    rintro (⟨h, -⟩ | h | h)
    · exact absurd h2 h.2.2
    · exact absurd h2 h.2.2.2.1
    · exact h
  · by_cases h1 : n.scrambledAt scramKey 1 = 46
    · rw [survives_of_dot_one h1 h2]
      refine ⟨fun h => .inr (.inl h), ?_⟩
      rintro (⟨h, -⟩ | h | h)
      · exact absurd h1 h.2.1
      · exact h
      · exact absurd h.2.2.1 h2
    · by_cases h0 : n.scrambledAt scramKey 0 = 46
      · refine iff_of_false (survives_of_dot_zero h0 h1 h2) ?_
        rintro (⟨h, -⟩ | h | h)
        · exact h.1 h0
        · exact h1 h.2.2.1
        · exact h2 h.2.2.1
      · have hno : n.NoDot scramKey := ⟨h0, h1, h2⟩
        rw [survives_of_noDot hno]
        refine ⟨fun h => .inl ⟨hno, h⟩, ?_⟩
        rintro (⟨-, h⟩ | h | h)
        · exact h
        · exact absurd h.2.2.1 h1
        · exact absurd h.2.2.1 h2

end ShortName

/-- `PROGRA~1` -/
def progra : ShortName :=
  ⟨wide "PROGRA~1".toList, [], by decide, by decide, by decide⟩

/-- A byte 12 in the key makes the space behind the dot a dot, and another name comes back. -/
theorem progra_is_lost :
    scrambleShortName progra.text 0x0C00 = wide "PROGRA~1..  ".toList ∧
      unScrambleShortName (scrambleShortName progra.text 0x0C00) 0x0C00 ≠ progra.text := by
  decide

end Sandboxie.Scramble
