import Sandboxie.Lib.Bytes

/-!
# The UUID of the firmware

`GetFwUuid` of `core/drv/verify.c`: the walk over the structures of the SMBIOS table up to the
first one of type 1 that has a UUID.

A place in the table is what is there up to the end of the block, with the number of bytes up to
the end of the table, which may be more.
-/

namespace Sandboxie.FwUuid

open Bytes List

/-- What the second query leaves in `TableBuffer`, up to the end of the block that was allocated
for the length from the first query. -/
structure Table where
  tableBufferLength : UInt32
  bytes : List UInt8
  length_eq : bytes.length = (tableBufferLength.toNat + 20) % 2 ^ 32 - 16

/-! ### The code -/

/-- The loop over the unformatted area, to the marker or to the end of the table; nothing where it
reads behind the block. -/
def skipStrings : List UInt8 → Nat → Option (List UInt8 × Nat)
  | next, 0 => some (next, 0)
  | [], _ + 1 => none
  | c :: next, left + 1 =>
    if c ≠ 0 then skipStrings next left
    else if next = [] then none
    else if next.head? ≠ some 0 then skipStrings next left
    else some (c :: next, left + 1)

theorem length_skipStrings : ∀ {next rest : List UInt8} {left left' : Nat},
    skipStrings next left = some (rest, left') → rest.length ≤ next.length := by
  intro next
  induction next with
  | nil =>
    intro rest left left' h
    cases left with
    | zero => rw [skipStrings] at h; cases h; exact Nat.le_refl _
    | succ left => rw [skipStrings] at h; cases h
  | cons c next ih =>
    intro rest left left' h
    cases left with
    | zero => rw [skipStrings] at h; cases h; exact Nat.le_refl _
    | succ left =>
      rw [skipStrings] at h
      split at h
      · exact Nat.le_succ_of_le (ih h)
      · split at h
        · cases h
        · split at h
          · exact Nat.le_succ_of_le (ih h)
          · cases h
            exact Nat.le_refl _

def valid (uuid : List UInt8) : Bool := !uuid.all (· == 0x00) && !uuid.all (· == 0xff)

def order (uuid : List UInt8) : List UInt8 :=
  [byteAt uuid 3, byteAt uuid 2, byteAt uuid 1, byteAt uuid 0, byteAt uuid 5, byteAt uuid 4,
    byteAt uuid 7, byteAt uuid 6] ++ uuid.drop 8

/-- The loop over the structures; nothing where it reads behind the block. -/
def walk (data : List UInt8) (left : Nat) : Option (Option (List UInt8)) :=
  if left = 0 then some none
  else
    match hdata : data with
    | [] => none
    | [_] => none
    | type :: length :: _ =>
      if hshort : length.toNat < 4 then some none
      else if type = 0x01 ∧ 0x19 ≤ length.toNat then
        let uuid := (data.drop 8).take 16
        if uuid.length < 16 then none
        else if valid uuid then some (some (order uuid))
        else some none
      else
        match hskip : skipStrings (data.drop length.toNat) (left - length.toNat) with
        | none => none
        | some (next, left) => walk (next.drop 2) (left - 2)
termination_by data.length
decreasing_by
  have hle := length_skipStrings hskip
  rw [List.length_drop] at hle ⊢
  subst hdata
  simp only [List.length_cons] at *
  omega

/-- `GetFwUuid`, where the queries and the allocation succeed. -/
def getFwUuid (t : Table) : Option (Option (List UInt8)) :=
  if t.bytes.length < 8 then none else walk (t.bytes.drop 8) (u32 t.bytes 4)

/-! ### What is meant -/

/-- A structure: the formatted area with the header, and the strings in front of the marker. -/
structure Entry where
  formatted : List UInt8
  strings : List UInt8

namespace Entry

def bytes (s : Entry) : List UInt8 := s.formatted ++ (s.strings ++ [0, 0])

/-- The header has the length of the formatted area, and the first marker behind it is the one at
the end. -/
structure WellFormed (s : Entry) : Prop where
  header : 4 ≤ s.formatted.length
  length : (byteAt s.formatted 1).toNat = s.formatted.length
  strings : ¬[0, 0] <:+: s.strings ++ [0]

/-- A structure of type 1 with a UUID. -/
def HasUuid (s : Entry) : Prop := byteAt s.formatted 0 = 0x01 ∧ 0x19 ≤ s.formatted.length

def uuid (s : Entry) : List UInt8 := (s.formatted.drop 8).take 16

end Entry

/-- In front of the end of the table, well-formed structures behind each other have a UUID that is
valid. -/
def Reports (data : List UInt8) (left : Nat) (uuid : List UInt8) : Prop :=
  ∃ (ss : List Entry) (rest : List UInt8), data = ss.flatMap Entry.bytes ++ rest ∧
    (ss.flatMap Entry.bytes).length ≤ left ∧
    (∀ s ∈ ss, s.WellFormed) ∧
      ∃ s ∈ ss, s.HasUuid ∧ valid s.uuid = true ∧ uuid = order s.uuid

/-- The walk ends without a read behind the block, and has a UUID exactly if there is one. -/
def Meets (data : List UInt8) (left : Nat) : Prop :=
  ∃ r, walk data left = some r ∧ (r.isSome = true ↔ ∃ uuid, Reports data left uuid) ∧
    ∀ uuid, r = some uuid → Reports data left uuid

/-- The table is read in the block only, and has the UUID that is returned. -/
def ReadsUuid (t : Table) : Prop :=
  ∃ r, getFwUuid t = some r ∧
    (r.isSome = true ↔ ∃ uuid, Reports (t.bytes.drop 8) (u32 t.bytes 4) uuid) ∧
      ∀ uuid, r = some uuid → Reports (t.bytes.drop 8) (u32 t.bytes 4) uuid

/-! ### When that is so -/

/-- A place behind well-formed structures that have no UUID. -/
inductive Comes : List UInt8 → Nat → List UInt8 → Nat → Prop
  | here (data : List UInt8) (left : Nat) : Comes data left data left
  | behind {s : Entry} {rest data' : List UInt8} {left left' : Nat} (hs : s.WellFormed)
      (huuid : ¬s.HasUuid) (hleft : s.bytes.length ≤ left)
      (h : Comes rest (left - s.bytes.length) data' left') :
      Comes (s.bytes ++ rest) left data' left'

/-- There is a marker in front of the end of the table. -/
def Marked (next : List UInt8) (left : Nat) : Prop :=
  ∃ strings rest, next = strings ++ 0 :: 0 :: rest ∧ ¬[0, 0] <:+: strings ++ [0] ∧
    strings.length < left

/-- Without a marker the end of the table is found in the block: it is not the end of the block, or
that has no zero in front of it. -/
def Closed (next : List UInt8) (left : Nat) : Prop :=
  left < next.length ∨ (left = next.length ∧ next.getLast? ≠ some 0)

instance (next : List UInt8) (left : Nat) : Decidable (Closed next left) :=
  inferInstanceAs (Decidable (_ ∨ _))

/-- The structure at a place in front of the end of the table has its header in the block.  If it
has a UUID this is in the block, the structure is well-formed in the table if the UUID is valid, and
there is no other one with a valid UUID if not.  Otherwise the end of the structure or of the table
is found. -/
structure Sound (data : List UInt8) (left : Nat) : Prop where
  header : 2 ≤ data.length
  system : byteAt data 0 = 0x01 → 0x19 ≤ (byteAt data 1).toNat → 24 ≤ data.length ∧
    if valid ((data.drop 8).take 16) = true then
      ∃ s rest, data = Entry.bytes s ++ rest ∧ s.WellFormed ∧ s.bytes.length ≤ left
    else ∀ uuid, ¬Reports data left uuid
  other : ¬(byteAt data 0 = 0x01 ∧ 0x19 ≤ (byteAt data 1).toNat) → 4 ≤ (byteAt data 1).toNat →
    Marked (data.drop (byteAt data 1).toNat) (left - (byteAt data 1).toNat) ∨
      Closed (data.drop (byteAt data 1).toNat) (left - (byteAt data 1).toNat)

/-! ### The strings -/

theorem skipStrings_found : ∀ {strings : List UInt8}, ¬[0, 0] <:+: strings ++ [0] →
    ∀ {rest : List UInt8} {left : Nat}, strings.length < left →
      skipStrings (strings ++ 0 :: 0 :: rest) left =
        some (0 :: 0 :: rest, left - strings.length) := by
  intro strings
  induction strings with
  | nil =>
    intro _ rest left hleft
    obtain ⟨left, rfl⟩ : ∃ l, left = l + 1 := ⟨left - 1, by simp at hleft; omega⟩
    rfl
  | cons c strings ih =>
    intro hno rest left hleft
    obtain ⟨left, rfl⟩ : ∃ l, left = l + 1 := ⟨left - 1, by omega⟩
    rw [length_cons] at hleft
    have htail : ¬[0, 0] <:+: strings ++ [0] := fun h => hno (infix_cons h)
    have hrest := @ih htail rest left (by omega)
    have hlen : left + 1 - (c :: strings).length = left - strings.length := by
      rw [length_cons]
      omega
    rw [cons_append, skipStrings, hlen]
    by_cases hc : c ≠ 0
    · rw [if_pos hc, hrest]
    rw [if_neg hc, if_neg (by simp), if_pos, hrest]
    -- two zeros would be a marker
    intro hd
    refine hno (List.IsPrefix.isInfix ?_)
    cases strings with
    | nil => exact ⟨[], by rw [not_not.mp hc]; rfl⟩
    | cons d strings =>
      have hd : d = 0 := Option.some.inj hd
      exact ⟨strings ++ [0], by rw [not_not.mp hc, hd]; rfl⟩

theorem closed_cons {c : UInt8} {next : List UInt8} {left : Nat} (h : c ≠ 0 ∨ next ≠ []) :
    Closed (c :: next) (left + 1) ↔ Closed next left := by
  unfold Closed
  rw [length_cons, Nat.add_lt_add_iff_right, Nat.add_right_cancel_iff]
  cases next with
  | nil =>
    have hc := h.resolve_right fun h => h rfl
    simp [hc]
  | cons d next => rw [getLast?_cons_cons]

theorem skipStrings_cases : ∀ (next : List UInt8) (left : Nat), Marked next left ∨
    ((∀ strings rest, next = strings ++ 0 :: 0 :: rest → left ≤ strings.length) ∧
      skipStrings next left = if Closed next left then some (next.drop left, 0) else none) := by
  intro next
  induction next with
  | nil =>
    intro left
    refine .inr ⟨fun strings rest h => by simp at h, ?_⟩
    cases left with
    | zero => rfl
    | succ left => rfl
  | cons c next ih =>
    intro left
    cases left with
    | zero => exact .inr ⟨fun _ _ _ => Nat.zero_le _, rfl⟩
    | succ left =>
      by_cases hmark : c = 0 ∧ next.head? = some 0
      · obtain ⟨rest, rfl⟩ := head?_eq_some_iff.mp hmark.2
        refine .inl ⟨[], rest, by rw [hmark.1]; rfl, fun h => ?_, Nat.succ_pos _⟩
        have hlen := h.length_le
        simp at hlen
      -- the first byte belongs to the strings
      have hstep : ∀ strings rest, c :: next = strings ++ 0 :: 0 :: rest →
          ∃ strings', strings = c :: strings' ∧ next = strings' ++ 0 :: 0 :: rest := by
        intro strings rest h
        cases strings with
        | nil =>
          cases h
          exact absurd ⟨rfl, rfl⟩ hmark
        | cons d strings =>
          obtain ⟨rfl, hnext⟩ := List.cons.inj h
          exact ⟨strings, rfl, hnext⟩
      rcases ih left with ⟨strings, rest, rfl, hno, hlt⟩ | ⟨hnone, hskip⟩
      · refine .inl ⟨c :: strings, rest, rfl, fun h => ?_, Nat.succ_lt_succ hlt⟩
        rcases infix_cons_iff.mp h with h | h
        · obtain ⟨tail, htail⟩ := h
          obtain ⟨hc, htail⟩ := List.cons.inj htail
          refine hmark ⟨hc.symm, ?_⟩
          cases strings with
          | nil => rfl
          | cons d strings => exact congrArg some (List.cons.inj htail).1.symm
        · exact hno h
      · refine .inr ⟨fun strings rest h => ?_, ?_⟩
        · obtain ⟨strings', rfl, hnext⟩ := hstep strings rest h
          exact Nat.succ_le_succ (hnone strings' rest hnext)
        · rw [skipStrings]
          by_cases hc : c ≠ 0
          · rw [if_pos hc, hskip, drop_succ_cons]
            exact if_congr (closed_cons (.inl hc)).symm rfl rfl
          rw [if_neg hc]
          by_cases hnil : next = []
          · rw [if_pos hnil, hnil, not_not.mp hc, if_neg]
            rintro (h | h)
            · simp at h
            · exact h.2 rfl
          · rw [if_neg hnil, if_pos fun h => hmark ⟨not_not.mp hc, h⟩, hskip,
              drop_succ_cons]
            exact if_congr (closed_cons (.inr hnil)).symm rfl rfl

/-! ### The structures -/

variable {s s' : Entry} {data rest rest' : List UInt8} {left : Nat} {uuid : List UInt8}

theorem Entry.length_bytes (s : Entry) :
    s.bytes.length = s.formatted.length + (s.strings.length + 2) := by
  rw [bytes, length_append, length_append]
  rfl

theorem Entry.byteAt_bytes {i : Nat} (h : i < s.formatted.length) (rest : List UInt8) :
    byteAt (s.bytes ++ rest) i = byteAt s.formatted i := by
  rw [bytes, append_assoc, byteAt, getD_append _ _ _ _ h, byteAt]

theorem Entry.WellFormed.length_eq (hs : s.WellFormed) (rest : List UInt8) :
    (byteAt (s.bytes ++ rest) 1).toNat = s.formatted.length := by
  have hheader := hs.header
  rw [byteAt_bytes (by omega), hs.length]

theorem Entry.drop_bytes (s : Entry) (rest : List UInt8) :
    (s.bytes ++ rest).drop s.formatted.length = s.strings ++ 0 :: 0 :: rest := by
  rw [bytes, append_assoc, drop_left, append_assoc]
  rfl

theorem Entry.HasUuid.uuid_eq (h : s.HasUuid) (rest : List UInt8) :
    ((s.bytes ++ rest).drop 8).take 16 = s.uuid := by
  have hlen := h.2
  rw [bytes, append_assoc, drop_append_of_le_length (by omega),
    take_append_of_le_length (by rw [length_drop]; omega)]
  rfl

theorem Entry.WellFormed.hasUuid_iff (hs : s.WellFormed) (rest : List UInt8) :
    byteAt (s.bytes ++ rest) 0 = 0x01 ∧ 0x19 ≤ (byteAt (s.bytes ++ rest) 1).toNat ↔
      s.HasUuid := by
  have hheader := hs.header
  rw [hs.length_eq, byteAt_bytes (by omega)]
  rfl

theorem Entry.WellFormed.unique (hs : s.WellFormed) (hs' : s'.WellFormed)
    (h : s.bytes ++ rest = s'.bytes ++ rest') : s = s' ∧ rest = rest' := by
  have hlen : s.formatted.length = s'.formatted.length := by
    rw [← hs.length_eq rest, h, hs'.length_eq]
  have hformatted : s.formatted = s'.formatted := by
    have htake := congrArg (List.take s.formatted.length) h
    rw [bytes, append_assoc, take_left, hlen, bytes, append_assoc,
      take_left] at htake
    exact htake
  have hdrop := drop_bytes s rest
  rw [h, hlen, drop_bytes] at hdrop
  have hfound := @skipStrings_found _ hs.strings rest _
    (show s.strings.length < s.strings.length + s'.strings.length + 1 by omega)
  rw [← hdrop, skipStrings_found hs'.strings (by omega)] at hfound
  have hpair := Prod.mk.inj (Option.some.inj hfound)
  have hrest := (List.cons.inj (List.cons.inj hpair.1).2).2
  have hstrings : s.strings = s'.strings := by
    rw [hrest] at hdrop
    exact (append_cancel_right hdrop).symm
  refine ⟨?_, hrest.symm⟩
  cases s
  cases s'
  simp only at hformatted hstrings
  rw [hformatted, hstrings]

theorem reports_iff : Reports data left uuid ↔ ∃ s rest, data = Entry.bytes s ++ rest ∧
    s.WellFormed ∧ s.bytes.length ≤ left ∧
      ((s.HasUuid ∧ valid s.uuid = true ∧ uuid = order s.uuid) ∨
        Reports rest (left - s.bytes.length) uuid) := by
  constructor
  · rintro ⟨_ | ⟨s, ss⟩, rest, rfl, hlen, hall, s', hs', hreport⟩
    · cases hs'
    · rw [flatMap_cons, length_append] at hlen
      obtain ⟨hs, hss⟩ := forall_mem_cons.mp hall
      refine ⟨s, ss.flatMap Entry.bytes ++ rest, by rw [flatMap_cons, append_assoc], hs,
        by omega, ?_⟩
      rcases mem_cons.mp hs' with rfl | hs'
      · exact .inl hreport
      · exact .inr ⟨ss, rest, rfl, by omega, hss, s', hs', hreport⟩
  · rintro ⟨s, rest, rfl, hs, hlen, hreport | ⟨ss, rest', rfl, hlen', hss, s', hs', hreport⟩⟩
    · refine ⟨[s], rest, by simp, by simpa using hlen, by simpa using hs, s, .head _, hreport⟩
    · refine ⟨s :: ss, rest', by rw [flatMap_cons, append_assoc], ?_,
        forall_mem_cons.mpr ⟨hs, hss⟩, s', .tail _ hs', hreport⟩
      rw [flatMap_cons, length_append]
      omega

theorem comes_iff {data' : List UInt8} {left' : Nat} : Comes data left data' left' ↔
    (data' = data ∧ left' = left) ∨ ∃ s rest, data = Entry.bytes s ++ rest ∧ s.WellFormed ∧
      ¬s.HasUuid ∧ s.bytes.length ≤ left ∧ Comes rest (left - s.bytes.length) data' left' := by
  constructor
  · rintro (_ | ⟨hs, huuid, hleft, h⟩)
    · exact .inl ⟨rfl, rfl⟩
    · exact .inr ⟨_, _, rfl, hs, huuid, hleft, h⟩
  · rintro (⟨rfl, rfl⟩ | ⟨s, rest, rfl, hs, huuid, hleft, h⟩)
    · exact .here _ _
    · exact .behind hs huuid hleft h

/-! ### The walk -/

theorem walk_zero (data : List UInt8) : walk data 0 = some none := by
  rw [walk.eq_def, if_pos rfl]

theorem walk_short (hleft : left ≠ 0) (h : data.length < 2) : walk data left = none := by
  rw [walk.eq_def, if_neg hleft]
  match data, h with
  | [], _ => rfl
  | [_], _ => rfl

theorem walk_eq (hleft : left ≠ 0) (h : 2 ≤ data.length) : walk data left =
    if (byteAt data 1).toNat < 4 then some none
    else if byteAt data 0 = 0x01 ∧ 0x19 ≤ (byteAt data 1).toNat then
      if data.length < 24 then none
      else if valid ((data.drop 8).take 16) then some (some (order ((data.drop 8).take 16)))
      else some none
    else
      (skipStrings (data.drop (byteAt data 1).toNat) (left - (byteAt data 1).toNat)).bind fun r =>
        walk (r.1.drop 2) (r.2 - 2) := by
  match data, h with
  | type :: length :: rest, _ =>
    rw [walk.eq_def, if_neg hleft]
    refine if_congr Iff.rfl rfl (if_congr Iff.rfl (if_congr ?_ rfl rfl) ?_)
    · rw [length_take, length_drop]
      omega
    show _ = (skipStrings ((type :: length :: rest).drop length.toNat)
      (left - length.toNat)).bind _
    split
    · rename_i hskip
      rw [hskip]
      rfl
    · rename_i hskip
      rw [hskip]
      rfl

theorem Sound.of_wellFormed (hs : s.WellFormed) (huuid : ¬s.HasUuid)
    (hleft : s.bytes.length ≤ left) :
    Sound (s.bytes ++ rest) left := by
  have hheader := hs.header
  have hlen := s.length_bytes
  refine ⟨?_, fun h0 h1 => absurd ((hs.hasUuid_iff rest).mp ⟨h0, h1⟩) huuid, fun _ _ => .inl ?_⟩
  · rw [length_append]
    omega
  · rw [hs.length_eq, s.drop_bytes]
    exact ⟨s.strings, rest, rfl, hs.strings, by omega⟩

theorem walk_behind (hs : s.WellFormed) (huuid : ¬s.HasUuid) (hleft : s.bytes.length ≤ left) :
    walk (s.bytes ++ rest) left = walk rest (left - s.bytes.length) := by
  have hheader := hs.header
  have hlen := s.length_bytes
  rw [walk_eq (by omega) (by rw [length_append]; omega), hs.length_eq, if_neg (by omega),
    if_neg fun h => huuid ((hs.hasUuid_iff rest).mp (by rw [hs.length_eq]; exact h)),
    s.drop_bytes, skipStrings_found hs.strings (by omega), Option.bind_some]
  congr 1
  omega

theorem meets_zero (data : List UInt8) : Meets data 0 := by
  refine ⟨none, walk_zero data, iff_of_false (by decide) ?_, nofun⟩
  rintro ⟨uuid, h⟩
  obtain ⟨s, rest, -, -, hlen, -⟩ := reports_iff.mp h
  have hsize := s.length_bytes
  omega

theorem meets_of_none (hwalk : walk data left = some none)
    (hnone : ∀ s rest, data = Entry.bytes s ++ rest → s.WellFormed → ¬s.bytes.length ≤ left) :
    Meets data left := by
  refine ⟨none, hwalk, iff_of_false (by decide) ?_, nofun⟩
  rintro ⟨uuid, h⟩
  obtain ⟨s, rest, heq, hs, hlen, -⟩ := reports_iff.mp h
  exact hnone s rest heq hs hlen

theorem meets_system (hleft : left ≠ 0) (h2 : 2 ≤ data.length)
    (hsystem : byteAt data 0 = 0x01 ∧ 0x19 ≤ (byteAt data 1).toNat) :
    Meets data left ↔ Sound data left := by
  have hwalk := walk_eq hleft h2
  rw [if_neg (by omega), if_pos hsystem] at hwalk
  by_cases h24 : data.length < 24
  · rw [if_pos h24] at hwalk
    refine iff_of_false (fun ⟨r, hr, _⟩ => ?_) fun h => ?_
    · rw [hwalk] at hr
      cases hr
    · have hin := (h.system hsystem.1 hsystem.2).1
      omega
  rw [if_neg h24] at hwalk
  by_cases hvalid : valid ((data.drop 8).take 16) = true
  · rw [if_pos hvalid] at hwalk
    constructor
    · rintro ⟨r, hr, -, hreports⟩
      rw [hwalk] at hr
      obtain ⟨s, rest, heq, hs, hlen, -⟩ := reports_iff.mp (hreports _ (Option.some.inj hr).symm)
      refine ⟨h2, fun _ _ => ⟨by omega, ?_⟩, fun h => absurd hsystem h⟩
      rw [if_pos hvalid]
      exact ⟨s, rest, heq, hs, hlen⟩
    · intro h
      have hin := (h.system hsystem.1 hsystem.2).2
      rw [if_pos hvalid] at hin
      obtain ⟨s, rest, rfl, hs, hlen⟩ := hin
      have huuid := (hs.hasUuid_iff rest).mp hsystem
      rw [huuid.uuid_eq] at hwalk hvalid
      have hreports : Reports (s.bytes ++ rest) left (order s.uuid) :=
        reports_iff.mpr ⟨s, rest, rfl, hs, hlen, .inl ⟨huuid, hvalid, rfl⟩⟩
      refine ⟨_, hwalk, iff_of_true rfl ⟨_, hreports⟩, fun uuid h => ?_⟩
      rw [← Option.some.inj h]
      exact hreports
  · rw [if_neg hvalid] at hwalk
    constructor
    · rintro ⟨r, hr, hnone, -⟩
      rw [hwalk] at hr
      cases hr
      refine ⟨h2, fun _ _ => ⟨by omega, ?_⟩, fun h => absurd hsystem h⟩
      rw [if_neg hvalid]
      exact fun uuid h => absurd (hnone.mpr ⟨uuid, h⟩) (by decide)
    · intro h
      have hin := (h.system hsystem.1 hsystem.2).2
      rw [if_neg hvalid] at hin
      exact ⟨none, hwalk, iff_of_false (by decide) fun ⟨uuid, h⟩ => hin uuid h, nofun⟩

theorem meets_other (hleft : left ≠ 0) (h2 : 2 ≤ data.length) (hlong : 4 ≤ (byteAt data 1).toNat)
    (hother : ¬(byteAt data 0 = 0x01 ∧ 0x19 ≤ (byteAt data 1).toNat))
    (hlast : ∀ s rest, data = Entry.bytes s ++ rest → s.WellFormed → ¬s.bytes.length ≤ left) :
    Meets data left ↔ Sound data left := by
  have hwalk := walk_eq hleft h2
  rw [if_neg (by omega), if_neg hother] at hwalk
  rcases skipStrings_cases (data.drop (byteAt data 1).toNat) (left - (byteAt data 1).toNat) with
    hmarked | ⟨hnone, hskip⟩
  · -- the marker stands across the end of the table
    refine iff_of_true ?_ ⟨h2, fun h0 h1 => absurd ⟨h0, h1⟩ hother, fun _ _ => .inl hmarked⟩
    obtain ⟨strings, rest, hdrop, hno, hlt⟩ := hmarked
    have hdata : data = Entry.bytes ⟨data.take (byteAt data 1).toNat, strings⟩ ++ rest := by
      rw [Entry.bytes, append_assoc, append_assoc]
      show data = _ ++ (strings ++ 0 :: 0 :: rest)
      rw [← hdrop, take_append_drop]
    have hlen : (data.take (byteAt data 1).toNat).length = (byteAt data 1).toNat := by
      refine length_take_of_le ?_
      have hdroplen := congrArg List.length hdrop
      rw [length_drop, length_append] at hdroplen
      simp only [length_cons] at hdroplen
      omega
    have hs : Entry.WellFormed ⟨data.take (byteAt data 1).toNat, strings⟩ := by
      refine ⟨by dsimp only; omega, ?_, hno⟩
      rw [byteAt_take (by omega), hlen]
    have hsize := hlast _ rest hdata hs
    rw [Entry.length_bytes] at hsize
    dsimp only at hsize
    rw [hdrop, skipStrings_found hno hlt, Option.bind_some] at hwalk
    rw [show left - (byteAt data 1).toNat - strings.length - 2 = 0 by omega, walk_zero] at hwalk
    exact meets_of_none hwalk hlast
  · rw [hskip] at hwalk
    by_cases hclosed : Closed (data.drop (byteAt data 1).toNat) (left - (byteAt data 1).toNat)
    · rw [if_pos hclosed, Option.bind_some] at hwalk
      have hwalk := hwalk.trans (walk_zero _)
      exact iff_of_true (meets_of_none hwalk hlast)
        ⟨h2, fun h0 h1 => absurd ⟨h0, h1⟩ hother, fun _ _ => .inr hclosed⟩
    · rw [if_neg hclosed] at hwalk
      refine iff_of_false (fun ⟨r, hr, _⟩ => ?_) fun h => ?_
      · rw [hwalk] at hr
        cases hr
      · rcases h.other hother hlong with ⟨strings, rest, hdrop, -, hlt⟩ | h
        · have hle := hnone strings rest hdrop
          omega
        · exact hclosed h

theorem meets_iff (data : List UInt8) (left : Nat) : Meets data left ↔
    ∀ data' left', Comes data left data' left' → left' ≠ 0 → Sound data' left' := by
  induction hn : data.length using Nat.strongRecOn generalizing data left with
  | _ n ih =>
    by_cases hleft : left = 0
    · subst hleft
      refine iff_of_true (meets_zero data) fun data' left' h hne => ?_
      rcases comes_iff.mp h with ⟨-, rfl⟩ | ⟨s, rest, -, -, -, hlen, -⟩
      · exact absurd rfl hne
      · have hsize := s.length_bytes
        omega
    by_cases hfirst : ∃ s rest, data = Entry.bytes s ++ rest ∧ s.WellFormed ∧ ¬s.HasUuid ∧
        s.bytes.length ≤ left
    · -- the walk goes on behind the first structure
      obtain ⟨s, rest, rfl, hs, huuid, hlen⟩ := hfirst
      have hsize := s.length_bytes
      have hrest := ih rest.length (by rw [← hn, length_append]; omega) rest
        (left - s.bytes.length) rfl
      have hreports : ∀ uuid, Reports (s.bytes ++ rest) left uuid ↔
          Reports rest (left - s.bytes.length) uuid := by
        intro uuid
        rw [reports_iff]
        constructor
        · rintro ⟨s', rest', heq, hs', -, hreport⟩
          obtain ⟨rfl, rfl⟩ := hs.unique hs' heq
          exact hreport.resolve_left fun h => huuid h.1
        · exact fun h => ⟨s, rest, rfl, hs, hlen, .inr h⟩
      have hmeets : Meets (s.bytes ++ rest) left ↔ Meets rest (left - s.bytes.length) := by
        unfold Meets
        rw [walk_behind hs huuid hlen]
        simp only [hreports]
      rw [hmeets, hrest]
      constructor
      · intro h data' left' hcomes hne
        rcases comes_iff.mp hcomes with ⟨rfl, rfl⟩ | ⟨s', rest', heq, hs', -, -, hcomes⟩
        · exact Sound.of_wellFormed hs huuid hlen
        · obtain ⟨rfl, rfl⟩ := hs.unique hs' heq
          exact h data' left' hcomes hne
      · exact fun h data' left' hcomes => h data' left' (.behind hs huuid hlen hcomes)
    · -- the walk ends with the first structure
      have honly : (∀ data' left', Comes data left data' left' → left' ≠ 0 → Sound data' left') ↔
          Sound data left := by
        constructor
        · exact fun h => h data left (.here data left) hleft
        · intro h data' left' hcomes _
          rcases comes_iff.mp hcomes with ⟨rfl, rfl⟩ | ⟨s, rest, heq, hs, huuid, hlen, -⟩
          · exact h
          · exact absurd ⟨s, rest, heq, hs, huuid, hlen⟩ hfirst
      rw [honly]
      by_cases h2 : 2 ≤ data.length
      · by_cases hshort : (byteAt data 1).toNat < 4
        · have hwalk := walk_eq hleft h2
          rw [if_pos hshort] at hwalk
          refine iff_of_true (meets_of_none hwalk ?_)
            ⟨h2, fun _ h1 => by omega, fun _ h4 => by omega⟩
          rintro s rest rfl hs -
          have hheader := hs.header
          rw [hs.length_eq] at hshort
          omega
        by_cases hsystem : byteAt data 0 = 0x01 ∧ 0x19 ≤ (byteAt data 1).toNat
        · exact meets_system hleft h2 hsystem
        · refine meets_other hleft h2 (by omega) hsystem fun s rest heq hs hlen => hfirst ?_
          refine ⟨s, rest, heq, hs, fun huuid => hsystem ?_, hlen⟩
          rw [heq]
          exact (hs.hasUuid_iff rest).mpr huuid
      · refine iff_of_false (fun ⟨r, hr, _⟩ => ?_) fun h => h2 h.header
        rw [walk_short hleft (by omega)] at hr
        cases hr

/-- **The firmware's UUID** is read in the block and is the right one if the table has its header,
and each place that the walk comes to is sound. -/
theorem readsUuid_iff (t : Table) : ReadsUuid t ↔ 8 ≤ t.bytes.length ∧
    ∀ data left, Comes (t.bytes.drop 8) (u32 t.bytes 4) data left → left ≠ 0 → Sound data left := by
  rw [← meets_iff, ReadsUuid, getFwUuid]
  by_cases h : t.bytes.length < 8
  · rw [if_pos h]
    exact iff_of_false (fun ⟨r, hr, _⟩ => nomatch hr) fun h' => absurd h'.1 (by omega)
  · rw [if_neg h]
    exact (and_iff_right (by omega)).symm

def truncated : Table where
  tableBufferLength := 10
  bytes := [0, 2, 8, 0, 2, 0, 0, 0, 0x01, 0x19, 0, 0, 0, 0]
  length_eq := rfl

/-- The UUID is read behind the block. -/
theorem not_readsUuid_truncated : ¬ReadsUuid truncated := by
  rintro ⟨r, hr, -⟩
  rw [getFwUuid, if_neg (by decide), walk_eq (by decide) (by decide), if_neg (by decide),
    if_pos (by decide), if_pos (by decide)] at hr
  cases hr

end Sandboxie.FwUuid
