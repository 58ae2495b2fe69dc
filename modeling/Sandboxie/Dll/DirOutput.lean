import Sandboxie.Lib.Stores

/-!
# The entries of a directory in a buffer

`File_GetMergedInformation` of `core/dll/file_dir.c` puts the entries of a merged directory into
the buffer of its caller.  The check for room takes the `sizeof` of the entry's structure,
`File_CopyFixedInformation` begins the name at its `FIELD_OFFSET`, and the offset of the next
entry is then rounded up.

The entries come in the order of the merge, without those that are deleted.  A name is as long
as a `UNICODE_STRING` can be.
-/

namespace Sandboxie.DirOutput

open Bytes Layout

/-! ### The structures -/

/-- A field that is copied: where it goes, where it is in `FILE_ID_BOTH_DIR_INFORMATION`, and
its size. -/
structure Field where
  target : Nat
  source : Nat
  size : Nat
deriving DecidableEq, Repr

/-- The structure of an information class: its `sizeof`, the `FIELD_OFFSET` of `FileName`, and
the fields that `File_CopyFixedInformation` copies behind `NextEntryOffset`. -/
structure Shape where
  entryLength : Nat
  nameOffset : Nat
  fields : List Field
deriving DecidableEq, Repr

inductive FileInformationClass
  | fileDirectory
  | fileFullDirectory
  | fileBothDirectory
  | fileNames
  | fileIdBothDirectory
  | fileIdFullDirectory
  | other
deriving DecidableEq, Repr

abbrev fileIndex : Field := ⟨4, 4, 4⟩
/-- From `CreationTime` to `AllocationSize`. -/
abbrev times : List Field :=
  [⟨8, 8, 8⟩, ⟨16, 16, 8⟩, ⟨24, 24, 8⟩, ⟨32, 32, 8⟩, ⟨40, 40, 8⟩, ⟨48, 48, 8⟩]
abbrev fileAttributes : Field := ⟨56, 56, 4⟩
abbrev fileNameLength : Field := ⟨60, 60, 4⟩
abbrev eaInformationLength : Field := ⟨64, 64, 4⟩
/-- `ShortNameLength` and `ShortName` -/
abbrev shortName : List Field := [⟨68, 68, 1⟩, ⟨70, 70, 24⟩]

/-- The structures, and what `File_CopyFixedInformation` copies into each of them. -/
def shape : FileInformationClass → Option Shape
  | .fileDirectory => some ⟨72, 64, fileIndex :: times ++ [fileAttributes, fileNameLength]⟩
  | .fileFullDirectory =>
    some ⟨72, 68, fileIndex :: times ++ [fileAttributes, fileNameLength, eaInformationLength]⟩
  | .fileBothDirectory =>
    some ⟨96, 94, fileIndex :: times ++ [fileAttributes, fileNameLength, eaInformationLength] ++
      shortName⟩
  | .fileNames => some ⟨16, 12, [fileIndex, ⟨8, 60, 4⟩]⟩
  | .fileIdBothDirectory =>
    some ⟨112, 104, fileIndex :: times ++ [fileAttributes, fileNameLength, eaInformationLength] ++
      shortName ++ [⟨96, 96, 8⟩]⟩
  | .fileIdFullDirectory =>
    some ⟨88, 80, fileIndex :: times ++ [fileAttributes, fileNameLength, eaInformationLength,
      ⟨72, 96, 8⟩]⟩
  | .other => none

/-- `FILE_ID_BOTH_DIR_INFORMATION` in memory: what is in front of the name, and the name. -/
structure Entry where
  head : List UInt8
  name : List UInt8
  head_length : head.length = 104
  nameLength_eq : u32 head 60 = name.length
  even : 2 ∣ name.length
  short : name.length < 2 ^ 16

/-! ### The loop -/

inductive Status
  | success
  | noMoreFiles
  | bufferOverflow
  | infoLengthMismatch
  | invalidInfoClass
  /-- of a query of a directory -/
  | failed (code : Nat)
deriving DecidableEq, Repr

/-- The status, `IoStatusBlock->Information` where it is written, the buffer, and the entries
that are still to come. -/
structure Answer where
  status : Status
  information : Option Nat
  buffer : List UInt8
  rest : List Entry

/-- The stores of `File_CopyFixedInformation` at an offset of the buffer. -/
def fixedStores (s : Shape) (source : Entry) (target : Nat) : List (Nat × List UInt8) :=
  (target, ofU32 (s.nameOffset + source.name.length)) ::
    s.fields.map fun f => (target + f.target, (source.head.drop f.source).take f.size)

/-- `NextEntryOffset` gets its alignment. -/
def alignNext (buffer : List UInt8) (next : Nat) : Option (List UInt8) :=
  let tmp := u32 buffer next % 8
  if tmp ≠ 0 then store buffer next (ofU32 (u32 buffer next + (8 - tmp))) else some buffer

def copiedLength (s : Shape) (length next : Nat) (e : Entry) : Nat :=
  let len := next + s.entryLength - 2 + e.name.length
  if length < len then e.name.length - (len - length) else e.name.length

/-- An entry is put at `next`, with as much of its name as there is room for. -/
def putEntry (s : Shape) (buffer : List UInt8) (next : Nat) (e : Entry) :
    Option (List UInt8) :=
  (storeAll buffer (fixedStores s e next)).bind fun b =>
    (alignNext b next).bind fun b =>
      store b (next + s.nameOffset) (e.name.take (copiedLength s buffer.length next e))

/-- The loop ends with `NextEntryOffset` of the entry at `prev` reset. -/
def finish (buffer : List UInt8) (prev next : Nat) (status : Status) (rest : List Entry) :
    Option Answer :=
  (store buffer prev (ofU32 0)).map fun b =>
    { status := status, information := some next, buffer := b, rest := rest }

/-- The loop of `File_GetMergedInformation`; `failure` is the status of a query that fails when
the entries are through. -/
def mergeLoop (s : Shape) (single : Bool) (failure : Option Nat) :
    List Entry → Nat → Nat → List UInt8 → Option Answer
  | [], prev, next, buffer =>
    match failure with
    | some code =>
      some { status := .failed code, information := some next, buffer := buffer, rest := [] }
    | none => finish buffer prev next (if next = 0 then .noMoreFiles else .success) []
  | e :: rest, prev, next, buffer =>
    let len := s.entryLength - 2 + if next ≠ 0 then e.name.length else 0
    if buffer.length < next + len then
      finish buffer prev next (if next = 0 then .bufferOverflow else .success) (e :: rest)
    else
      (putEntry s buffer next e).bind fun b =>
        if copiedLength s buffer.length next e < e.name.length then
          finish b prev next .bufferOverflow (e :: rest)
        else
          let next' := next + u32 b next
          if single || b.length < next' + s.entryLength then finish b next next' .success rest
          else mergeLoop s single failure rest next next' b

/-- `File_GetMergedInformation`; `Length` is the length of the buffer. -/
def getMergedInformation (cls : FileInformationClass) (buffer : List UInt8) (single : Bool)
    (entries : List Entry) (failure : Option Nat) : Option Answer :=
  match shape cls with
  | none =>
    some { status := .invalidInfoClass, information := none, buffer := buffer, rest := entries }
  | some s =>
    if buffer.length < s.entryLength then
      some
        { status := .infoLengthMismatch, information := none, buffer := buffer, rest := entries }
    else mergeLoop s single failure entries 0 0 buffer

/-! ### What is asked of the buffer -/

/-- The entry is at an offset of the buffer: its fields and its whole name. -/
structure Holds (s : Shape) (b : List UInt8) (off : Nat) (e : Entry) : Prop where
  inside : off + s.nameOffset + e.name.length ≤ b.length
  fields : ∀ f ∈ s.fields, ∀ i < f.size,
    byteAt b (off + f.target + i) = byteAt e.head (f.source + i)
  name : ∀ i < e.name.length, byteAt b (off + s.nameOffset + i) = byteAt e.name i

/-- The chain of `NextEntryOffset` from an offset on visits these entries. -/
inductive Chain (s : Shape) (b : List UInt8) : Nat → List Entry → Prop
  | last {off : Nat} {e : Entry} (h : Holds s b off e) (hzero : u32 b off = 0) : Chain s b off [e]
  | next {off : Nat} {e : Entry} {es : List Entry} (h : Holds s b off e) (hpos : 0 < u32 b off)
      (haligned : 8 ∣ u32 b off) (hrest : Chain s b (off + u32 b off) es) : Chain s b off (e :: es)

/-- No store leaves the buffer, `Information` is at most its length, and with success the chain
visits the entries that were written. -/
def WellFormed (cls : FileInformationClass) (length : Nat) (entries : List Entry)
    (r : Option Answer) : Prop :=
  ∃ a, r = some a ∧ a.buffer.length = length ∧ (∀ n ∈ a.information, n ≤ length) ∧
    (a.status = .success → ∃ s written, shape cls = some s ∧ entries = written ++ a.rest ∧
      Chain s a.buffer 0 written)

def padded (s : Shape) (e : Entry) : Nat := alignUp 8 (s.nameOffset + e.name.length)

def offsetBehind (s : Shape) (es : List Entry) : Nat := (es.map (padded s)).sum

/-- Each entry for which there is room ends in the buffer with its size rounded up. -/
def RoundsInside (s : Shape) (length : Nat) (single : Bool) (entries : List Entry) : Prop :=
  ∀ before e behind, entries = before ++ e :: behind →
    (before ≠ [] → single = false ∧ offsetBehind s before + s.entryLength ≤ length) →
      offsetBehind s before + (s.entryLength - 2) + e.name.length ≤ length →
        offsetBehind s before + padded s e ≤ length

end Sandboxie.DirOutput
