import Sandboxie.Dll.PathFile
import Sandboxie.Lib.Chase

/-!
# The chain of snapshots

`File_InitSnapshots` of `file_snapshots.c` follows the entries `Parent` of `Snapshots.ini` from
the current snapshot on, without looking at the snapshots it has met.  Allocations succeed.

`initSnapshots_finishes_iff` says for which files the walk comes to an end.  `CRC32` of
`common/crc.c`, which gives each snapshot its key, has its part in that: it takes its bytes as
`char`, and from 128 on they lead out of its table.
-/

namespace Sandboxie.Snapshots

open Text PathTree Relation List

/-! ### The ini file -/

structure IniSection where
  name : List WChar
  keys : List (List WChar × List WChar)

/-- What `GetPrivateProfileStringW` puts into a buffer of `size` characters, when an empty text
stands for what is not there.  The first section and the first key of a name count, without
regard to case. -/
def getPrivateProfileString (towlower : WChar → WChar) (ini : List IniSection)
    (appName keyName : List WChar) (size : Nat) : List WChar :=
  match ini.find? fun s => sameNoCase towlower s.name appName with
  | none => []
  | some s =>
    match s.keys.find? fun k => sameNoCase towlower k.1 keyName with
    | none => []
    | some k => (cut k.2).take (size - 1)

/-! ### The keys -/

/-- One step of the division that an entry of `table` is the remainder of. -/
def crcStep (rem : BitVec 32) : BitVec 32 :=
  if rem &&& 1 ≠ 0 then (rem >>> 1) ^^^ 0xedb88320 else rem >>> 1

/-- `table[i]`; the table has 256 entries. -/
def crcTable (i : BitVec 32) : Option (BitVec 32) := if i < 256 then some (crcStep^[8] i) else none

/-- The loop of `CRC32`.  An `octet` is a `char` with its sign. -/
def crcLoop : BitVec 32 → List UInt8 → Option (BitVec 32)
  | crc, [] => some crc
  | crc, b :: bytes =>
    (crcTable ((crc &&& 0xff) ^^^ b.toBitVec.signExtend 32)).bind fun entry =>
      crcLoop ((crc >>> 8) ^^^ entry) bytes

/-- `CRC32`; `none` when it reads outside of its table. -/
def crc32 (bytes : List UInt8) : Option (BitVec 32) := (crcLoop (~~~0) bytes).map (~~~ ·)

def textBytes (text : List WChar) : List UInt8 :=
  text.flatMap fun c => [UInt8.ofNat c, UInt8.ofNat (c / 2 ^ 8)]

/-! ### The walk -/

/-- `FILE_SNAPSHOT`; its `Parent` comes next in the chain. -/
structure FileSnapshot where
  id : List WChar
  idLen : Nat
  scramKey : BitVec 32
  pathRoot : PathNodes

/-- What `File_InitSnapshots` finds. -/
structure Box where
  towlower : WChar → WChar
  /-- `Snapshots.ini` -/
  ini : List IniSection
  /-- `File_Delete_v2` -/
  deleteV2 : Bool
  /-- `File_TranslateDosToNtPath` -/
  translatePath : TranslatePath
  /-- The text of a file in the folder of the box. -/
  readFile : List WChar → Option (List WChar)

namespace Box

/-- The snapshot of the section `Current`. -/
def current (box : Box) : Option (List WChar) :=
  match getPrivateProfileString box.towlower box.ini (wide "Current".toList)
    (wide "Snapshot".toList) 17 with
  | [] => none
  | c :: id => some (c :: id)

def snapshotId (id : List WChar) : List WChar := wide "Snapshot_".toList ++ id

def parent (box : Box) (id : List WChar) : Option (List WChar) :=
  match getPrivateProfileString box.towlower box.ini (snapshotId id) (wide "Parent".toList) 16 with
  | [] => none
  | c :: id => some (c :: id)

/-- The paths that were deleted or relocated when the snapshot was taken. -/
def pathRoot (box : Box) (id : List WChar) : PathNodes :=
  if box.deleteV2 then
    match box.readFile (wide "snapshot-".toList ++ id ++ wide "\\FilePaths.dat".toList) with
    | some text => loadPathTree box.towlower box.translatePath text
    | none => .nil
  else .nil

end Box

inductive Outcome
  /-- it goes on -/
  | running
  /-- `CRC32` has read outside of its table -/
  | fault
  /-- the chain of `File_Snapshot` -/
  | finished (chain : List FileSnapshot)

def Outcome.cons (snapshot : FileSnapshot) : Outcome → Outcome
  | finished chain => finished (snapshot :: chain)
  | outcome => outcome

/-- The loop of `File_InitSnapshots` from a snapshot on, for so many rounds. -/
def initLoop (box : Box) : Nat → List WChar → Outcome
  | 0, _ => .running
  | fuel + 1, id =>
    match crc32 (textBytes id) with
    | none => .fault
    | some key =>
      let snapshot : FileSnapshot := ⟨id, id.length, key, box.pathRoot id⟩
      match box.parent id with
      | none => .finished [snapshot]
      | some id' => (initLoop box fuel id').cons snapshot

/-- `File_InitSnapshots`, for so many rounds of its loop. -/
def initSnapshots (box : Box) (fuel : Nat) : Outcome :=
  match box.current with
  | none => .finished []
  | some id => initLoop box fuel id

/-- **The walk comes to an end**, and has met each snapshot once. -/
def Finishes (box : Box) : Prop :=
  ∃ fuel chain, initSnapshots box fuel = .finished chain ∧
    chain.Pairwise fun x y => ¬ sameNoCase box.towlower x.id y.id = true

/-! ### What is read -/

theorem getPrivateProfileString_congr {towlower : WChar → WChar} {ini : List IniSection}
    {s t : List WChar} (h : sameNoCase towlower s t = true) (key : List WChar) (size : Nat) :
    getPrivateProfileString towlower ini s key size =
      getPrivateProfileString towlower ini t key size := by
  have hsame : ∀ u : List WChar, sameNoCase towlower u s = sameNoCase towlower u t := by
    intro u
    rw [sameNoCase, sameNoCase, beq_iff_eq.mp h]
  unfold getPrivateProfileString
  simp only [hsame]

def iniValues (ini : List IniSection) (size : Nat) : List (List WChar) :=
  ini.flatMap fun s => s.keys.map fun k => (cut k.2).take (size - 1)

theorem getPrivateProfileString_mem (towlower : WChar → WChar) (ini : List IniSection)
    (s key : List WChar) (size : Nat) :
    getPrivateProfileString towlower ini s key size = [] ∨
      getPrivateProfileString towlower ini s key size ∈ iniValues ini size := by
  unfold getPrivateProfileString
  split
  · exact .inl rfl
  · rename_i found hfound
    split
    · exact .inl rfl
    · rename_i k hk
      refine .inr (mem_flatMap.mpr ⟨found, mem_of_find?_eq_some hfound, ?_⟩)
      exact mem_map.mpr ⟨k, mem_of_find?_eq_some hk, rfl⟩

namespace Box

variable {box : Box} {id id' : List WChar}

theorem parent_eq_some : box.parent id = some id' ↔
    getPrivateProfileString box.towlower box.ini (snapshotId id) (wide "Parent".toList) 16 = id' ∧
      id' ≠ [] := by
  unfold parent
  split
  · rename_i hnil
    rw [hnil]
    exact ⟨nofun, fun h => absurd h.1.symm h.2⟩
  · rename_i c rest hcons
    rw [hcons, Option.some.injEq]
    refine ⟨fun h => ⟨h, ?_⟩, fun h => h.1⟩
    rw [← h]
    exact cons_ne_nil c rest

theorem parent_mem (h : box.parent id = some id') :
    id' ∈ iniValues box.ini 16 := by
  obtain ⟨rfl, hne⟩ := parent_eq_some.mp h
  exact (getPrivateProfileString_mem _ _ _ _ _).resolve_left hne

theorem parent_congr
    (h : sameNoCase box.towlower id id' = true) : box.parent id = box.parent id' := by
  have hsection : sameNoCase box.towlower (snapshotId id) (snapshotId id') = true := by
    unfold snapshotId sameNoCase
    rw [map_append, map_append, beq_iff_eq.mp h]
    exact beq_self_eq_true _
  unfold parent
  rw [getPrivateProfileString_congr hsection]

end Box

/-! ### What `CRC32` reads -/

theorem crcTable_isSome (crc : BitVec 32) (b : UInt8) :
    (crcTable ((crc &&& 0xff) ^^^ b.toBitVec.signExtend 32)).isSome = true ↔ b < 128 := by
  have hlt : ∀ i : BitVec 32, i < 256 ↔ i >>> 8 = 0 := by
    intro i
    rw [← BitVec.toNat_inj, BitVec.toNat_ushiftRight, Nat.shiftRight_eq_div_pow, BitVec.lt_def]
    show i.toNat < 256 ↔ i.toNat / 2 ^ 8 = 0
    omega
  have hlow : (crc &&& 0xff) >>> 8 = 0#32 := by
    rw [BitVec.ushiftRight_and_distrib]
    exact BitVec.and_zero
  have hbyte : ∀ v : BitVec 8, v.signExtend 32 >>> 8 = 0 ↔ v < 128 := by decide
  unfold crcTable
  split
  · rename_i hi
    rw [hlt, BitVec.ushiftRight_xor_distrib, hlow, BitVec.zero_xor] at hi
    exact iff_of_true rfl ((hbyte _).mp hi)
  · rename_i hi
    rw [hlt, BitVec.ushiftRight_xor_distrib, hlow, BitVec.zero_xor] at hi
    exact iff_of_false nofun fun hb => hi ((hbyte _).mpr hb)

/-- **`CRC32`** stays in its table as long as the bytes are below 128. -/
theorem crc32_isSome (bytes : List UInt8) :
    (crc32 bytes).isSome = true ↔ ∀ b ∈ bytes, b < 128 := by
  have hloop : ∀ crc, (crcLoop crc bytes).isSome = true ↔ ∀ b ∈ bytes, b < 128 := by
    induction bytes with
    | nil => exact fun _ => ⟨fun _ => nofun, fun _ => rfl⟩
    | cons b bytes ih =>
      intro crc
      rw [crcLoop, forall_mem_cons, ← crcTable_isSome crc b]
      cases crcTable ((crc &&& 0xff) ^^^ b.toBitVec.signExtend 32) with
      | none => exact ⟨nofun, fun h => nomatch h.1⟩
      | some entry => exact (ih _).trans ⟨fun h => ⟨rfl, h⟩, fun h => h.2⟩
  rw [crc32, Option.isSome_map]
  exact hloop _

/-- No byte of the name is above 127. -/
def PlainId (id : List WChar) : Prop := ∀ b ∈ textBytes id, b < 128

instance (id : List WChar) : Decidable (PlainId id) := List.decidableBAll _ _

/-! ### The end of the walk -/

theorem cons_eq_finished {snapshot : FileSnapshot} {outcome : Outcome} {chain : List FileSnapshot} :
    outcome.cons snapshot = .finished chain ↔
      ∃ rest, outcome = .finished rest ∧ chain = snapshot :: rest := by
  cases outcome with
  | running => exact ⟨nofun, fun ⟨_, h, _⟩ => nomatch h⟩
  | fault => exact ⟨nofun, fun ⟨_, h, _⟩ => nomatch h⟩
  | finished rest =>
    refine ⟨fun h => ⟨rest, rfl, (Outcome.finished.inj h).symm⟩, ?_⟩
    rintro ⟨rest', hrest, rfl⟩
    rw [Outcome.finished.inj hrest]
    rfl

/-- **A walk** lists the parents one after the other, as long as their names are plain. -/
theorem initLoop_finished (box : Box) : ∀ {fuel : Nat} {id : List WChar}
    {chain : List FileSnapshot}, initLoop box fuel id = .finished chain →
      chase box.parent fuel id = some (chain.map (·.id)) ∧ ∀ s ∈ chain, PlainId s.id := by
  intro fuel
  induction fuel with
  | zero => exact nofun
  | succ fuel ih =>
    intro id chain h
    rw [initLoop] at h
    cases hkey : crc32 (textBytes id) with
    | none =>
      rw [hkey] at h
      exact nomatch h
    | some key =>
      rw [hkey] at h
      have hplain : PlainId id := (crc32_isSome _).mp (by rw [hkey]; rfl)
      cases hparent : box.parent id with
      | none =>
        rw [hparent] at h
        obtain rfl := Outcome.finished.inj h
        exact ⟨chase_end hparent, forall_mem_singleton.mpr hplain⟩
      | some id' =>
        rw [hparent] at h
        obtain ⟨rest, hrest, rfl⟩ := cons_eq_finished.mp h
        obtain ⟨hchase, hall⟩ := ih hrest
        refine ⟨?_, forall_mem_cons.mpr ⟨hplain, hall⟩⟩
        rw [chase_next hparent, hchase]
        rfl

theorem initLoop_of_chase (box : Box) : ∀ {fuel : Nat} {id : List WChar} {l : List (List WChar)},
    chase box.parent fuel id = some l → (∀ x ∈ l, PlainId x) →
      ∃ chain, initLoop box fuel id = .finished chain := by
  intro fuel
  induction fuel with
  | zero => exact nofun
  | succ fuel ih =>
    intro id l h hplain
    have hself : id ∈ l := (chase_lists .refl h).1
    obtain ⟨key, hkey⟩ := Option.isSome_iff_exists.mp ((crc32_isSome _).mpr (hplain id hself))
    rw [initLoop, hkey]
    cases hparent : box.parent id with
    | none => exact ⟨_, rfl⟩
    | some id' =>
      rw [chase_next hparent] at h
      obtain ⟨l', hl', rfl⟩ := Option.map_eq_some_iff.mp h
      obtain ⟨chain, hchain⟩ := ih hl' (forall_mem_cons.mp hplain).2
      exact ⟨_, cons_eq_finished.mpr ⟨chain, hchain, rfl⟩⟩

def Reached (box : Box) (id : List WChar) : Prop :=
  ∃ first, box.current = some first ∧ ReflTransGen (Follows box.parent) first id

def OwnAncestor (box : Box) (id : List WChar) : Prop := TransGen (Follows box.parent) id id

theorem Finishes.reached {box : Box} (h : Finishes box) {id : List WChar} (hid : Reached box id) :
    ¬ OwnAncestor box id ∧ PlainId id := by
  obtain ⟨fuel, chain, hchain, -⟩ := h
  obtain ⟨first, hfirst, hpath⟩ := hid
  rw [initSnapshots, hfirst] at hchain
  obtain ⟨hchase, hplain⟩ := initLoop_finished box hchain
  obtain ⟨hmem, m, l, hl⟩ := chase_lists hpath hchase
  obtain ⟨s, hs, rfl⟩ := mem_map.mp hmem
  exact ⟨chase_acyclic hl, hplain s hs⟩

/-- **`File_InitSnapshots` finishes**, having met each snapshot once, exactly when no snapshot it
comes to is among its own ancestors and `CRC32` can read the names of them all. -/
theorem initSnapshots_finishes_iff (box : Box) :
    Finishes box ↔ ∀ id, Reached box id → ¬ OwnAncestor box id ∧ PlainId id := by
  refine ⟨fun h id hid => h.reached hid, fun h => ?_⟩
  cases hcurrent : box.current with
  | none => exact ⟨0, [], by rw [initSnapshots, hcurrent], List.Pairwise.nil⟩
  | some first =>
    have hreach : ∀ id, ReflTransGen (Follows box.parent) first id → Reached box id :=
      fun id hid => ⟨first, hcurrent, hid⟩
    obtain ⟨fuel, l, hl⟩ :=
      (chase_ends_iff box.parent_mem).mpr fun id hid => (h id (hreach id hid)).1
    obtain ⟨chain, hchain⟩ := initLoop_of_chase box hl fun id hid =>
      (h id (hreach id (chase_reaches hl hid))).2
    obtain ⟨hids, -⟩ := initLoop_finished box hchain
    refine ⟨fuel, chain, by rw [initSnapshots, hcurrent]; exact hchain, ?_⟩
    have hpair := pairwise_of_chase (fun x y hxy => box.parent_congr hxy) hids
    exact pairwise_map.mp hpair

/-- A box whose current snapshot `1` has the parent `2`, which has the parent `1`. -/
def loopBox : Box where
  towlower := asciiLower
  ini := [⟨wide "Current".toList, [(wide "Snapshot".toList, [49])]⟩,
    ⟨wide "Snapshot_1".toList, [(wide "Parent".toList, [50])]⟩,
    ⟨wide "Snapshot_2".toList, [(wide "Parent".toList, [49])]⟩]
  deleteV2 := false
  translatePath _ := none
  readFile _ := none

/-- There the walk goes round for ever. -/
theorem initSnapshots_goes_round : ¬ Finishes loopBox := by
  have hone : loopBox.parent [49] = some [50] := by decide
  have htwo : loopBox.parent [50] = some [49] := by decide
  intro h
  exact (h.reached ⟨[49], by decide, .refl⟩).1 (TransGen.tail (TransGen.single hone) htwo)

end Sandboxie.Snapshots
