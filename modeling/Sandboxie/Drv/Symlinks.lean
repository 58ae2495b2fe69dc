import Sandboxie.Common.Text
import Sandboxie.Lib.Cells

/-!
# Symbolic links of the object manager

`File_TranslateSymlinks` replaces the longest prefix of a name that is a link by the target, as
often as there is one, in the buffer of the name.  What stands behind the prefix waits at the end
of the buffer while the target is queried into its beginning.

`wcslen` ends at the first null character, but a target is counted and can hold one.  Then `rem`
wraps around, and `wmemmove` leaves the buffer.
-/

namespace Sandboxie.Symlinks

open Text List

inductive Status
  | objectTypeMismatch
  | objectNameNotFound
  | objectPathNotFound
  | objectPathSyntaxBad
  | reparsePointNotResolved
  | bufferTooSmall
  | other (code : Nat)
deriving DecidableEq

/-- What `ZwQuerySymbolicLinkObject` has for a link. -/
abbrev Target := Except Status (List WChar)

/-- `\Device` -/
def device : List WChar := wide ['\\', 'D', 'e', 'v', 'i', 'c', 'e']

/-- The links that `ZwOpenSymbolicLinkObject` finds.  Names are absolute, and neither the root
nor `\Device` is a link. -/
structure ObjectManager (towlower : WChar → WChar) where
  openLink : List WChar → Except Status Target
  rooted : ∀ name target, openLink name = .ok target → ∃ c rest, name = 92 :: c :: rest
  noDevice : ∀ name target, openLink name = .ok target → sameNoCase towlower name device = false

def wcslen (buf : List WChar) : Option Nat := if 0 ∈ buf then some (cut buf).length else none

/-- `do --len; while (len && name[len] != L'\\');` -/
def back (buf : List WChar) : Nat → Nat
  | 0 => 0
  | len + 1 => if len = 0 ∨ buf[len]? = some 92 then len else back buf len

/-- `wmemmove`, unless there is nothing to move. -/
def moveRem (buf : List WChar) (dst src rem : Nat) : Option (List WChar) :=
  if rem = 0 then some buf else Cells.move buf dst src rem

inductive Next
  | top (name : List WChar) (len : Nat)
  | returns (status : Except Status Unit) (name : List WChar)

structure Result where
  status : Except Status Unit
  name : List WChar
  replaced : Nat

section Links

variable {towlower : WChar → WChar} (om : ObjectManager towlower)

/-- One turn of the `while` loop: `name[len]` is set to zero, and set back. -/
def openPrefix (buf : List WChar) (len : Nat) : Option (Except Status Target) :=
  buf[len]?.map fun _ =>
    if len = 7 ∧ sameNoCase towlower (cut (buf.take 7)) device = true then
      .error .objectTypeMismatch
    else om.openLink (buf.take (len * 2 % 2 ^ 16 / 2))

/-- The `while` loop: the link and its length, or the last status. -/
def search (buf : List WChar) : Nat → Nat → Option (Except Status (Nat × Target))
  | 0, _ => none
  | fuel + 1, len =>
    match openPrefix om buf len with
    | none => none
    | some (.ok target) => some (.ok (len, target))
    | some (.error status) =>
      if len ≤ 1 then some (.error status)
      else if back buf len ≤ 1 then some (.error status)
      else search buf fuel (back buf len)

def noLink (found : Bool) (status : Status) : Except Status Unit :=
  if status = .objectTypeMismatch then
    if found then .ok () else .error .objectPathSyntaxBad
  else if status = .objectNameNotFound ∨ status = .objectPathNotFound then
    .error .objectPathSyntaxBad
  else .error status

/-- The target is queried to the start of the buffer, and the suffix is put behind it. -/
def replace (buf : List WChar) (ofs rem : Nat) (target : List WChar) : Option Next :=
  if (ofs * 2) % 2 ^ 16 < target.length * 2 then some (.returns (.error .bufferTooSmall) buf)
  else do
    let buf ← Cells.store buf 0 target
    let buf ← moveRem buf target.length ofs rem
    let buf ← Cells.store buf (target.length + rem) [0]
    some (.top buf (target.length + rem))

/-- From `top:` to `goto top;`. -/
def round (maxLen : Nat) (found : Bool) (buf : List WChar) (len : Nat) : Option Next := do
  match ← search om buf (len + 1) len with
  | .error status => some (.returns (noLink found status) buf)
  | .ok (len, target) =>
    let rem := ((← wcslen buf) + (2 ^ 32 - len)) % 2 ^ 32
    let ofs := (maxLen + (2 ^ 32 - rem)) % 2 ^ 32
    let buf ← moveRem buf ofs len rem
    match target with
    | .error status => some (.returns (.error status) buf)
    | .ok target => replace buf ofs rem target

/-- The rounds that are left until `retry` is 8. -/
def rounds (maxLen : Nat) : Nat → Bool → List WChar → Nat → Option Result
  | 0, _, buf, _ => some ⟨.error .reparsePointNotResolved, buf, 0⟩
  | left + 1, found, buf, len =>
    match round om maxLen found buf len with
    | none => none
    | some (.returns status buf) => some ⟨status, buf, 0⟩
    | some (.top buf len) =>
      (rounds maxLen left true buf len).map fun r => { r with replaced := r.replaced + 1 }

/-- `File_TranslateSymlinks`; nothing where an access leaves the buffer. -/
def translateSymlinks (maxLen : Nat) (buf : List WChar) : Option Result := do
  rounds om maxLen 7 false buf (← wcslen buf)

/-! ### What the function is for -/

/-- A prefix of the name that ends at a component boundary. -/
def Boundary (name : List WChar) (len : Nat) : Prop :=
  len = name.length ∨ name[len]? = some 92

/-- No prefix that is longer than this is a link. -/
def NoneBeyond (name : List WChar) (len : Nat) : Prop :=
  ∀ k, len < k → Boundary name k → ∀ target, om.openLink (name.take k) ≠ .ok target

/-- No prefix is a link. -/
def Normal (name : List WChar) : Prop :=
  ∀ k, Boundary name k → ∀ target, om.openLink (name.take k) ≠ .ok target

/-- The longest prefix that is a link is replaced by its target. -/
def Replaces (name name' : List WChar) : Prop :=
  ∃ len target, Boundary name len ∧ om.openLink (name.take len) = .ok (.ok target) ∧
    NoneBeyond om name len ∧ name' = target ++ name.drop len

/-- What a number of replacements leads to, where all of the names fit. -/
def Reaches (maxLen : Nat) : Nat → List WChar → List WChar → Prop
  | 0, name, name' => name = name'
  | n + 1, name, name' =>
    ∃ next, Replaces om name next ∧ next.length ≤ maxLen ∧ Reaches maxLen n next name'

/-- The function stays inside of the buffer, ends after seven links, and is exact. -/
def Meets (maxLen : Nat) (name rest : List WChar) : Prop :=
  ∃ r, translateSymlinks om maxLen (name ++ 0 :: rest) = some r ∧ r.replaced ≤ 7 ∧
    (r.status = .ok () → Reaches om maxLen r.replaced name (cut r.name) ∧ Normal om (cut r.name))

/-- A name whose length is what `wcslen` and a `USHORT` of bytes say. -/
def Plain (name : List WChar) : Prop := 0 ∉ name ∧ name.length < 2 ^ 15

structure Holds (maxLen : Nat) (buf name : List WChar) : Prop where
  text : ∃ rest, buf = name ++ 0 :: rest
  size : buf.length = maxLen + 2
  fits : name.length ≤ maxLen

variable {om} {maxLen len : Nat} {buf name : List WChar}

theorem Holds.cut_eq (h : Holds maxLen buf name) (hname : 0 ∉ name) : cut buf = name := by
  obtain ⟨rest, rfl⟩ := h.text
  exact cut_append hname rest

theorem Holds.wcslen_eq (h : Holds maxLen buf name) (hname : 0 ∉ name) :
    wcslen buf = some name.length := by
  rw [wcslen, if_pos, h.cut_eq hname]
  obtain ⟨rest, rfl⟩ := h.text
  exact mem_append_right _ mem_cons_self

theorem Holds.take (h : Holds maxLen buf name) (hlen : len ≤ name.length) :
    buf.take len = name.take len := by
  obtain ⟨rest, rfl⟩ := h.text
  exact take_append_of_le_length hlen

theorem Holds.cell (h : Holds maxLen buf name) (hlen : len < name.length) :
    buf[len]? = name[len]? := by
  obtain ⟨rest, rfl⟩ := h.text
  exact getElem?_append_left hlen

/-! ### The search for a link -/

theorem back_spec (hlen : 2 ≤ len) : back buf len < len ∧
    (back buf len = 0 ∨ buf[back buf len]? = some 92) ∧
      ∀ k, back buf len < k → k < len → buf[k]? ≠ some 92 := by
  induction len with
  | zero => exact absurd hlen (by decide)
  | succ len ih =>
    rw [back]
    split
    · rename_i hstop
      exact ⟨Nat.lt_succ_self len, hstop, fun k hk hlt => absurd hk (by omega)⟩
    rename_i hgo
    rw [not_or] at hgo
    by_cases htwo : 2 ≤ len
    · obtain ⟨hlt, hstop, hnone⟩ := ih htwo
      refine ⟨by omega, hstop, fun k hk hklt => ?_⟩
      by_cases hkl : k = len
      · exact hkl ▸ hgo.2
      · exact hnone k hk (by omega)
    · obtain rfl : len = 1 := by omega
      have hzero : back buf 1 = 0 := if_pos (.inl rfl)
      rw [hzero]
      refine ⟨Nat.succ_pos 1, .inl rfl, fun k hk hklt => ?_⟩
      obtain rfl : k = 1 := by omega
      exact hgo.2

theorem not_link_of_le_one (hlen : len ≤ 1) (target : Target) :
    om.openLink (name.take len) ≠ .ok target := by
  intro h
  obtain ⟨c, rest, hname⟩ := om.rooted _ _ h
  have hlength := congrArg List.length hname
  rw [length_take, length_cons, length_cons] at hlength
  omega

theorem openPrefix_eq (h : Holds maxLen buf name) (hname : Plain name) (hlen : len ≤ name.length) :
    ∃ answer, openPrefix om buf len = some answer ∧
      ∀ target, answer = .ok target ↔ om.openLink (name.take len) = .ok target := by
  have hcell : ∃ c, buf[len]? = some c := by
    have hsize := h.size
    have hfits := h.fits
    exact ⟨_, getElem?_eq_getElem (show len < buf.length by omega)⟩
  obtain ⟨c, hc⟩ := hcell
  have hbytes : len * 2 % 2 ^ 16 / 2 = len := by
    have := hname.2
    omega
  refine ⟨_, by rw [openPrefix, hc]; rfl, fun target => ?_⟩
  rw [hbytes, h.take hlen]
  split
  · rename_i hdevice
    obtain ⟨rfl, hsame⟩ := hdevice
    have hnul : 0 ∉ name.take 7 := fun hmem => hname.1 (mem_of_mem_take hmem)
    rw [h.take hlen, cut_eq_self hnul] at hsame
    refine ⟨nofun, fun hlink => ?_⟩
    rw [om.noDevice _ _ hlink] at hsame
    cases hsame
  · exact Iff.rfl

theorem search_spec (h : Holds maxLen buf name) (hname : Plain name) {fuel : Nat}
    (hfuel : len < fuel) (hlen : Boundary name len) (hle : len ≤ name.length)
    (hbeyond : NoneBeyond om name len) :
    (∃ k target, search om buf fuel len = some (.ok (k, target)) ∧ k ≤ name.length ∧
      Boundary name k ∧ om.openLink (name.take k) = .ok target ∧ NoneBeyond om name k) ∨
    ∃ status, search om buf fuel len = some (.error status) ∧ Normal om name := by
  induction fuel generalizing len with
  | zero => exact absurd hfuel (Nat.not_lt_zero _)
  | succ fuel ih =>
    obtain ⟨answer, hopen, hanswer⟩ := openPrefix_eq h hname hle
    rw [search, hopen]
    cases answer with
    | ok target => exact .inl ⟨len, target, rfl, hle, hlen, (hanswer target).mp rfl, hbeyond⟩
    | error status =>
      have hself : ∀ target, om.openLink (name.take len) ≠ .ok target :=
        fun target hlink => nomatch (hanswer target).mpr hlink
      -- what is left below are prefixes of one character at most
      have hend : (∀ k, 2 ≤ k → k < len → ¬Boundary name k) → Normal om name := by
        intro hnone k hk target
        by_cases hone : k ≤ 1
        · exact not_link_of_le_one hone target
        · rcases Nat.lt_trichotomy k len with hlt | rfl | hgt
          · exact absurd hk (hnone k (by omega) hlt)
          · exact hself target
          · exact hbeyond k hgt hk target
      dsimp only
      split
      · exact .inr ⟨status, rfl, hend fun k htwo hlt => by omega⟩
      obtain ⟨hback, hstop, hnone⟩ := @back_spec len buf (by omega)
      have hno : ∀ k, back buf len < k → k < len → ¬Boundary name k := by
        intro k hk hlt hbound
        rcases hbound with rfl | hslash
        · omega
        · rw [← h.cell (by omega)] at hslash
          exact hnone k hk hlt hslash
      split
      · rename_i hsmall
        exact .inr ⟨status, rfl, hend fun k htwo hlt => hno k (by omega) hlt⟩
      have hslash := hstop.resolve_left (by omega)
      rw [h.cell (by omega)] at hslash
      refine ih (by omega) (.inr hslash) (by omega) fun k hk hbound target => ?_
      rcases Nat.lt_trichotomy k len with hlt | rfl | hgt
      · exact absurd hbound (hno k hk hlt)
      · exact hself target
      · exact hbeyond k hgt hbound target

/-! ### A replacement -/

theorem moveRem_eq {dst src rem : Nat} (hdst : dst + rem ≤ buf.length)
    (hsrc : src + rem ≤ buf.length) :
    moveRem buf dst src rem = some (Cells.splice buf dst ((buf.drop src).take rem)) := by
  unfold moveRem
  split
  · rename_i hrem
    rw [hrem, take_zero, Cells.splice_nil]
  · exact Cells.move_eq hdst hsrc

/-- **The target and the suffix** stand in the buffer behind each other. -/
theorem replace_spec (h : Holds maxLen buf name) (s target : List WChar) (hs : s.length ≤ maxLen) :
    (∃ buf', replace (Cells.splice buf (maxLen - s.length) s) (maxLen - s.length) s.length target =
      some (.returns (.error .bufferTooSmall) buf')) ∨
    ∃ buf', replace (Cells.splice buf (maxLen - s.length) s) (maxLen - s.length) s.length target =
      some (.top buf' (target ++ s).length) ∧ Holds maxLen buf' (target ++ s) := by
  have hsize := h.size
  generalize hofs : maxLen - s.length = ofs
  generalize hmoved : Cells.splice buf ofs s = moved
  have hlength : moved.length = maxLen + 2 := by
    rw [← hmoved, Cells.length_splice (by omega), hsize]
  unfold replace
  split
  · exact .inl ⟨_, rfl⟩
  have htarget : target.length ≤ ofs := by
    have := Nat.mod_le (ofs * 2) (2 ^ 16)
    omega
  have hqueried : Cells.splice moved 0 target = target ++ moved.drop target.length :=
    Cells.splice_append []
  have hlen : (target ++ moved.drop target.length).length = maxLen + 2 := by
    rw [length_append, length_drop]
    omega
  -- the query leaves the suffix at the end of the buffer
  have hsuffix : ((target ++ moved.drop target.length).drop ofs).take s.length = s := by
    rw [drop_append, drop_eq_nil_of_le htarget, nil_append, drop_drop,
      Nat.add_sub_cancel' htarget, ← hmoved, Cells.drop_splice (by omega), take_left]
  have hput : (target ++ (s ++ (moved.drop target.length).drop s.length)).length =
      maxLen + 2 := by
    simp only [length_append, length_drop]
    omega
  refine .inr ⟨(target ++ s) ++
    ([0] ++ ((moved.drop target.length).drop s.length).drop 1), ?_, ⟨_, rfl⟩, ?_, ?_⟩
  · have hbehind : target.length + s.length = (target ++ s).length := length_append.symm
    rw [Cells.store_eq (by omega), hqueried]
    simp only [Option.bind_eq_bind, Option.bind_some]
    rw [moveRem_eq (by omega) (by omega), hsuffix, Cells.splice_append, Option.bind_some,
      Cells.store_eq (by rw [hput]; simp; omega), hbehind, ← append_assoc,
      Cells.splice_append]
    rfl
  · simp only [length_append, length_drop, length_singleton]
    omega
  · rw [length_append]
    omega

theorem round_spec (h : Holds maxLen buf name) (hname : Plain name) (hmax : maxLen < 2 ^ 32)
    (found : Bool) :
    (∃ status buf', round om maxLen found buf name.length = some (.returns status buf') ∧
      (status = .ok () → buf' = buf ∧ Normal om name)) ∨
    ∃ buf' name', round om maxLen found buf name.length = some (.top buf' name'.length) ∧
      Holds maxLen buf' name' ∧ Replaces om name name' := by
  have hfits := h.fits
  have hsize := h.size
  have hbeyond : NoneBeyond om name name.length := by
    intro k hk hbound
    rcases hbound with rfl | hslash
    · exact absurd hk (Nat.lt_irrefl _)
    · rw [getElem?_eq_none (Nat.le_of_lt hk)] at hslash
      cases hslash
  unfold round
  rcases search_spec h hname (Nat.lt_succ_self _) (.inl rfl) (Nat.le_refl _) hbeyond with
    ⟨len, target, hsearch, hle, hbound, hlink, hlongest⟩ | ⟨status, hsearch, hnormal⟩
  · rw [hsearch]
    have hrem : (name.length + (2 ^ 32 - len)) % 2 ^ 32 = (name.drop len).length := by
      rw [length_drop]
      omega
    have hofs : (maxLen + (2 ^ 32 - (name.drop len).length)) % 2 ^ 32 =
        maxLen - (name.drop len).length := by
      rw [length_drop]
      omega
    have hmoved : (buf.drop len).take (name.drop len).length = name.drop len := by
      obtain ⟨rest, rfl⟩ := h.text
      rw [drop_append_of_le_length hle, take_left]
    have hdrop : (name.drop len).length = name.length - len := length_drop
    simp only [Option.bind_eq_bind, Option.bind_some, h.wcslen_eq hname.1, hrem, hofs]
    rw [moveRem_eq (by omega) (by omega), hmoved, Option.bind_some]
    cases target with
    | error status => exact .inl ⟨_, _, rfl, nofun⟩
    | ok target =>
      rcases replace_spec h (name.drop len) target (by omega) with ⟨buf', hfull⟩ |
        ⟨buf', htop, hbuf⟩
      · exact .inl ⟨_, buf', hfull, nofun⟩
      · exact .inr ⟨buf', _, htop, hbuf, len, target, hbound, hlink, hlongest, rfl⟩
  · rw [hsearch]
    exact .inl ⟨_, buf, rfl, fun _ => ⟨rfl, hnormal⟩⟩

theorem rounds_spec (h : Holds maxLen buf name) (hmax : maxLen < 2 ^ 32) (found : Bool) {left : Nat}
    (hplain : ∀ n < left, ∀ name', Reaches om maxLen n name name' → Plain name') :
    ∃ r, rounds om maxLen left found buf name.length = some r ∧ r.replaced ≤ left ∧
      (r.status = .ok () →
        Reaches om maxLen r.replaced name (cut r.name) ∧ Normal om (cut r.name)) := by
  induction left generalizing buf name found with
  | zero => exact ⟨_, rfl, Nat.le_refl 0, nofun⟩
  | succ left ih =>
    have hname := hplain 0 (Nat.succ_pos left) name rfl
    rw [rounds]
    rcases round_spec h hname hmax found with
      ⟨status, buf', hround, hok⟩ | ⟨buf', next, hround, hbuf, hnext⟩
    · rw [hround]
      refine ⟨_, rfl, Nat.zero_le _, fun hsuccess => ?_⟩
      obtain ⟨rfl, hnormal⟩ := hok hsuccess
      rw [h.cut_eq hname.1]
      exact ⟨rfl, hnormal⟩
    · rw [hround]
      obtain ⟨r, hr, hfew, hexact⟩ := ih hbuf true fun n hn name' hreach =>
        hplain (n + 1) (Nat.succ_lt_succ hn) name' ⟨next, hnext, hbuf.fits, hreach⟩
      refine ⟨{ r with replaced := r.replaced + 1 }, ?_, Nat.succ_le_succ hfew, fun hsuccess => ?_⟩
      · show Option.map _ (rounds om maxLen left true buf' next.length) = _
        rw [hr]
        rfl
      · obtain ⟨hreach, hnormal⟩ := hexact hsuccess
        exact ⟨⟨next, hnext, hbuf.fits, hreach⟩, hnormal⟩

end Links

/-! ### A drive letter -/

/-- `\??\x:` -/
def drive : List WChar := wide ['\\', '?', '?', '\\', 'x', ':']

/-- `\Device\c` -/
def disk : List WChar := device ++ wide ['\\', 'c']

/-- `\a`, a null character and `b` -/
def withNul : List WChar := wide ['\\', 'a'] ++ 0 :: wide ['b']

/-- The links of a list; `disk` is no link. -/
def linksOf (links : List (List WChar × List WChar)) (name : List WChar) : Except Status Target :=
  match links.lookup name with
  | some target => .ok (.ok target)
  | none => .error (if name = disk then .objectTypeMismatch else .objectNameNotFound)

theorem linksOf_ok {links : List (List WChar × List WChar)} {name : List WChar} {target : Target}
    (h : linksOf links name = .ok target) : ∃ t, (name, t) ∈ links ∧ target = .ok t := by
  unfold linksOf at h
  split at h
  · rename_i t hlookup
    obtain ⟨before, after, rfl, -⟩ := lookup_eq_some_iff.mp hlookup
    exact ⟨t, by simp, (Except.ok.inj h).symm⟩
  · cases h

def plainLinks : ObjectManager asciiLower where
  openLink := linksOf [(drive, disk)]
  rooted := fun name target h => by
    obtain ⟨t, hmem, -⟩ := linksOf_ok h
    obtain ⟨rfl, -⟩ := Prod.mk.inj (List.mem_singleton.mp hmem)
    exact ⟨_, _, rfl⟩
  noDevice := fun name target h => by
    obtain ⟨t, hmem, -⟩ := linksOf_ok h
    obtain ⟨rfl, -⟩ := Prod.mk.inj (List.mem_singleton.mp hmem)
    rfl

theorem replaces_plainLinks {name name' : List WChar} (hname : name = drive ∨ name = disk)
    (h : Replaces plainLinks name name') : name' = disk := by
  obtain ⟨len, target, -, hlink, -, rfl⟩ := h
  obtain ⟨t, hmem, htarget⟩ := linksOf_ok hlink
  obtain ⟨hdrive, rfl⟩ := Prod.mk.inj (mem_singleton.mp hmem)
  cases htarget
  have hprefix : drive <+: name := hdrive ▸ take_prefix len name
  rcases hname with rfl | rfl
  · have hlen := congrArg List.length hdrive
    rw [length_take] at hlen
    rw [drop_eq_nil_of_le (by omega), append_nil]
  · exact absurd hprefix (by decide)

theorem plain_of_reaches {maxLen n : Nat} {name name' : List WChar}
    (hname : name = drive ∨ name = disk) (h : Reaches plainLinks maxLen n name name') :
    Plain name' := by
  induction n generalizing name with
  | zero =>
    cases h
    rcases hname with rfl | rfl
    · exact ⟨by decide, show 6 < 2 ^ 15 by omega⟩
    · exact ⟨by decide, show 9 < 2 ^ 15 by omega⟩
  | succ n ih =>
    obtain ⟨next, hnext, -, hrest⟩ := h
    exact ih (.inr (replaces_plainLinks hname hnext)) hrest

theorem length_driveBuffer : (drive ++ 0 :: List.replicate 251 0).length = 256 + 2 := by
  rw [length_append, length_cons, length_replicate]
  rfl

def nulLinks : ObjectManager asciiLower where
  openLink := linksOf [(drive, withNul), (withNul, disk)]
  rooted := fun name target h => by
    obtain ⟨t, hmem, -⟩ := linksOf_ok h
    simp only [List.mem_cons, List.not_mem_nil, or_false, Prod.mk.injEq] at hmem
    rcases hmem with ⟨rfl, -⟩ | ⟨rfl, -⟩
    · exact ⟨_, _, rfl⟩
    · exact ⟨_, _, rfl⟩
  noDevice := fun name target h => by
    obtain ⟨t, hmem, -⟩ := linksOf_ok h
    simp only [List.mem_cons, List.not_mem_nil, or_false, Prod.mk.injEq] at hmem
    rcases hmem with ⟨rfl, -⟩ | ⟨rfl, -⟩ <;> rfl

end Sandboxie.Symlinks
