import Mathlib.Data.List.TakeWhile
import Sandboxie.Common.Text

/-!
# Names of boxed pipes

`File_GetBoxedPipeName` of `dll/file_pipe.c` puts the IPC path of the box, flattened into one
name, before the name of a pipe or mail slot, and behind the part of the name that belongs to an
AppContainer.  A pointer into a string is what is left of the string from there; nothing is left
at its terminator, and there is no pointer past it that may be read.
-/

namespace Sandboxie.PipeName

open Text List

/-- `PipeType`: the other types have no boxed name. -/
inductive PipeType
  | namedPipe
  | mailSlot
  | other
deriving DecidableEq

/-- `File_NamedPipe` and `File_MailSlot` -/
def fileNamedPipe : List WChar := wide "\\device\\namedpipe\\".toList

def fileMailSlot : List WChar := wide "\\device\\mailslot\\".toList

/-- `File_ACON_tag` and its length -/
def fileAconTag : List WChar := wide "AppContainerNamedObjects\\".toList

def fileAconTagLen : Nat := 25

inductive Fault
  | outside
deriving DecidableEq

/-- `Dll_BoxIpcPath`, `Dll_CompartmentMode` and `Dll_AlternateIpcNaming` -/
structure Dll where
  boxIpcPath : List WChar
  compartmentMode : Bool := false
  alternateIpcNaming : Bool := false

section Fold

variable (towlower : WChar → WChar)

/-- `_wcsnicmp` finds no difference. -/
def wcsnicmp (s t : List WChar) (n : Nat) : Bool := sameNoCase towlower (s.take n) (t.take n)

/-- `wcschr` for a backslash -/
def wcschr (s : List WChar) : Option (List WChar) :=
  match s.dropWhile (· ≠ 92) with
  | [] => none
  | c :: rest => some (c :: rest)

/-- `wcsstr` finds the text. -/
def wcsstr (s t : List WChar) : Bool := s.tails.any fun rest => t.isPrefixOf rest

/-- `ACON_split`: the loop over `suffix`. -/
def aconSplit : List WChar → Option (List WChar)
  | [] => none
  | c :: s =>
    if wcsnicmp towlower (c :: s) fileAconTag fileAconTagLen then
      let sid_start := (c :: s).drop fileAconTagLen
      match wcschr sid_start with
      | some sid_end => some sid_end
      | none => some []  -- the whole suffix becomes the prefix
    else aconSplit s

/-- The backslashes of `Dll_BoxIpcPath` become underscores. -/
def flatten (path : List WChar) : List WChar := path.map fun c => if c = 92 then 95 else c

/-- The part of the suffix before `ACON_split`, and `pipe_name`. -/
def parts (suffix : List WChar) : List WChar × List WChar :=
  match aconSplit towlower suffix with
  | some split => (suffix.take (suffix.length - split.length), split)
  | none => ([], suffix)

/-- The end of `File_GetBoxedPipeName`, from where the prefix of the box is written: what it writes
behind the AppContainer part. -/
def boxedPart (dll : Dll) (pipe_name : List WChar) : Except Fault (List WChar) :=
  let local_tag := wide "\\LOCAL".toList
  let kept := dll.compartmentMode && wcsnicmp towlower pipe_name local_tag 6
  let front := if kept then local_tag else []
  let pipe_name := if kept then pipe_name.drop 6 else pipe_name
  if dll.alternateIpcNaming then
    if pipe_name = [] then .ok front
    else if wcsstr pipe_name dll.boxIpcPath then .ok (front ++ pipe_name)
    else .ok (front ++ pipe_name ++ dll.boxIpcPath)
  else
    let boxPipePath := flatten dll.boxIpcPath
    let len := boxPipePath.length
    match pipe_name with
    -- `pipe_name + 1` is behind the terminator.
    | [] => .error .outside
    | c :: tail =>
      let pipe_name := if wcsnicmp towlower tail boxPipePath len then tail.drop len else c :: tail
      .ok (front ++ 92 :: boxPipePath ++ pipe_name)

def devicePrefix : PipeType → List WChar
  | .namedPipe => fileNamedPipe.dropLast
  | .mailSlot => fileMailSlot.dropLast
  | .other => []

def boxedName (dll : Dll) (pipeType : PipeType) (suffix : List WChar) :
    Except Fault (Option (List WChar)) :=
  match boxedPart towlower dll (parts towlower suffix).2 with
  | .error fault => .error fault
  | .ok rest => .ok (some (devicePrefix pipeType ++ (parts towlower suffix).1 ++ rest))

/-- `File_GetBoxedPipeName` -/
def getBoxedPipeName (dll : Dll) (truePath : List WChar) (pipeType : PipeType) :
    Except Fault (Option (List WChar)) :=
  match pipeType with
  | .namedPipe => boxedName towlower dll pipeType (truePath.drop (18 - 1))
  | .mailSlot => boxedName towlower dll pipeType (truePath.drop (17 - 1))
  | .other => .ok none

/-- `File_IsNamedPipe` finds the device prefix of the type. -/
def Begins (pipeType : PipeType) (truePath : List WChar) : Prop :=
  match pipeType with
  | .namedPipe => wcsnicmp towlower truePath fileNamedPipe 18 = true
  | .mailSlot => wcsnicmp towlower truePath fileMailSlot 17 = true
  | .other => False

end Fold

/-! ### The AppContainer part -/

section Split

variable {towlower : WChar → WChar}

theorem wcsnicmp_iff {s t : List WChar} {n : Nat} : wcsnicmp towlower s t n = true ↔
    (s.take n).map towlower = (t.take n).map towlower := by
  exact beq_iff_eq

def tagName : List WChar := fileAconTag.dropLast

theorem tag_eq : fileAconTag.take fileAconTagLen = tagName ++ [92] := by decide

theorem tagName_length : tagName.length = 24 := by decide

theorem tagName_plain : 92 ∉ tagName := by decide

theorem sidEnd_eq (s : List WChar) :
    (match wcschr s with | some sid_end => some sid_end | none => some []) =
      some (s.dropWhile (· ≠ 92)) := by
  unfold wcschr
  cases s.dropWhile (· ≠ 92) <;> rfl

theorem dropWhile_sid {sid rest : List WChar} (hsid : 92 ∉ sid)
    (hrest : rest = [] ∨ ∃ r, rest = 92 :: r) : (sid ++ rest).dropWhile (· ≠ 92) = rest := by
  have hall : ∀ c ∈ sid, decide (c ≠ 92) = true := by
    intro c hc
    exact decide_eq_true fun heq => hsid (heq ▸ hc)
  rw [dropWhile_append_of_pos hall]
  rcases hrest with rfl | ⟨r, rfl⟩
  · rfl
  · rw [dropWhile_cons_of_neg]
    decide

theorem dropWhile_begins (s : List WChar) :
    s.dropWhile (· ≠ 92) = [] ∨ ∃ r, s.dropWhile (· ≠ 92) = 92 :: r := by
  cases h : s.dropWhile (· ≠ 92) with
  | nil => exact .inl rfl
  | cons c r =>
    have hc := head?_dropWhile_not (fun c : WChar => decide (c ≠ 92)) s
    rw [h] at hc
    have hc' : c = 92 := by simpa using hc
    exact .inr ⟨r, by rw [hc']⟩

theorem aconSplit_cons (c : WChar) (s : List WChar) : aconSplit towlower (c :: s) =
    if wcsnicmp towlower (c :: s) fileAconTag fileAconTagLen then
      some (((c :: s).drop fileAconTagLen).dropWhile (· ≠ 92))
    else aconSplit towlower s := by
  rw [aconSplit]
  exact if_congr Iff.rfl (sidEnd_eq _) rfl

theorem tag_split {s : List WChar} (h : wcsnicmp towlower s fileAconTag fileAconTagLen = true) :
    ∃ tag sid, s = tag ++ (sid ++ (s.drop fileAconTagLen).dropWhile (· ≠ 92)) ∧
      tag.length = fileAconTagLen ∧ wcsnicmp towlower tag fileAconTag fileAconTagLen = true ∧
        92 ∉ sid := by
  refine ⟨s.take fileAconTagLen, (s.drop fileAconTagLen).takeWhile (· ≠ 92), ?_, ?_, ?_, ?_⟩
  · rw [takeWhile_append_dropWhile, take_append_drop]
  · have hlen := congrArg List.length (wcsnicmp_iff.mp h)
    rw [length_map, length_map] at hlen
    exact hlen
  · rw [wcsnicmp_iff] at h ⊢
    rw [take_take, Nat.min_self]
    exact h
  · intro hmem
    have hall := mem_takeWhile_imp hmem
    simp at hall

theorem aconSplit_some {s pipe : List WChar} (h : aconSplit towlower s = some pipe) :
    ∃ before tag sid, s = before ++ tag ++ sid ++ pipe ∧
      wcsnicmp towlower tag fileAconTag fileAconTagLen = true ∧
      tag.length = fileAconTagLen ∧ 92 ∉ sid ∧
      (pipe = [] ∨ ∃ p, pipe = 92 :: p) := by
  induction s with
  | nil => exact (nomatch h)
  | cons c s ih =>
    rw [aconSplit_cons] at h
    split_ifs at h with htag
    · obtain ⟨tag, sid, hsplit, hlen, htag', hsid⟩ := tag_split htag
      rw [Option.some.inj h] at hsplit
      refine ⟨[], tag, sid, ?_, htag', hlen, hsid, ?_⟩
      · rw [hsplit, nil_append, append_assoc]
      · rw [← Option.some.inj h]
        exact dropWhile_begins _
    · obtain ⟨before, tag, sid, heq, hrest⟩ := ih h
      exact ⟨c :: before, tag, sid, by rw [heq]; rfl, hrest⟩

theorem acon_length {acon pipe : List WChar} (h : aconSplit towlower (acon ++ pipe) = some pipe) :
    fileAconTagLen ≤ acon.length := by
  obtain ⟨before, tag, sid, heq, -, hlen, -⟩ := aconSplit_some h
  have := congrArg List.length heq
  simp only [length_append] at this
  omega

theorem wcsnicmp_append {s t t' : List WChar} (h : fileAconTagLen ≤ s.length) :
    wcsnicmp towlower (s ++ t) fileAconTag fileAconTagLen =
      wcsnicmp towlower (s ++ t') fileAconTag fileAconTagLen := by
  unfold wcsnicmp
  rw [take_append_of_le_length h, take_append_of_le_length h]

theorem aconSplit_append {acon pipe pipe' : List WChar}
    (h : aconSplit towlower (acon ++ pipe) = some pipe)
    (hpipe' : pipe' = [] ∨ ∃ p, pipe' = 92 :: p) :
    aconSplit towlower (acon ++ pipe') = some pipe' := by
  induction acon with
  | nil => exact absurd (acon_length h) (by decide)
  | cons c acon ih =>
    have hlength := acon_length h
    rw [cons_append, aconSplit_cons] at h ⊢
    have hsame : wcsnicmp towlower (c :: (acon ++ pipe)) fileAconTag fileAconTagLen =
        wcsnicmp towlower (c :: (acon ++ pipe')) fileAconTag fileAconTagLen :=
      wcsnicmp_append (s := c :: acon) hlength
    rw [← hsame]
    split_ifs at h with htag
    · rw [if_pos htag]
      obtain ⟨tag, sid, hsplit, hlen, -, hsid⟩ := tag_split htag
      rw [Option.some.inj h, ← append_assoc, ← cons_append] at hsplit
      have hacon : c :: acon = tag ++ sid := append_cancel_right hsplit
      rw [← cons_append, hacon, append_assoc, drop_left' hlen,
        dropWhile_sid hsid hpipe']
    · rw [if_neg htag]
      exact ih h

theorem parts_append {acon pipe pipe' : List WChar}
    (h : aconSplit towlower (acon ++ pipe) = some pipe)
    (hpipe' : pipe' = [] ∨ ∃ p, pipe' = 92 :: p) :
    parts towlower (acon ++ pipe') = (acon, pipe') := by
  unfold parts
  rw [aconSplit_append h hpipe']
  refine Prod.ext ?_ rfl
  show (acon ++ pipe').take ((acon ++ pipe').length - pipe'.length) = acon
  rw [length_append, Nat.add_sub_cancel]
  exact take_left

theorem parts_none {s : List WChar} (h : aconSplit towlower s = none) :
    parts towlower s = ([], s) := by
  unfold parts
  rw [h]

theorem parts_eq (s : List WChar) :
    (aconSplit towlower s = none ∧ parts towlower s = ([], s)) ∨
      ∃ acon pipe, s = acon ++ pipe ∧ aconSplit towlower s = some pipe ∧
        parts towlower s = (acon, pipe) ∧ (pipe = [] ∨ ∃ p, pipe = 92 :: p) := by
  cases h : aconSplit towlower s with
  | none => exact .inl ⟨rfl, parts_none h⟩
  | some pipe =>
    obtain ⟨before, tag, sid, heq, -, -, -, hpipe⟩ := aconSplit_some h
    refine .inr ⟨before ++ tag ++ sid, pipe, heq, rfl, ?_, hpipe⟩
    rw [heq] at h ⊢
    exact parts_append h hpipe

/-! ### Where a tag can be -/

def EndsInTag (towlower : WChar → WChar) (text : List WChar) : Prop :=
  (text.drop (text.length - 24)).map towlower = tagName.map towlower

variable (hlower : ∀ c, towlower c = towlower 92 → c = 92)

include hlower

variable {text : List WChar}

theorem plain_map (h : 92 ∉ text) : towlower 92 ∉ text.map towlower := by
  intro hmem
  obtain ⟨c, hc, heq⟩ := mem_map.mp hmem
  exact h (hlower c heq ▸ hc)

theorem aconSplit_plain (h : 92 ∉ text) : aconSplit towlower text = none := by
  induction text with
  | nil => rfl
  | cons c text ih =>
    rw [aconSplit_cons, if_neg, ih (fun hmem => h (mem_cons_of_mem c hmem))]
    intro htag
    refine plain_map hlower h ?_
    have hmem : towlower 92 ∈ ((c :: text).take fileAconTagLen).map towlower := by
      rw [wcsnicmp_iff.mp htag, tag_eq, map_append]
      exact mem_append_right _ mem_cons_self
    rw [map_take] at hmem
    exact mem_of_mem_take hmem

omit hlower in
theorem length_of_tagName (h : text.map towlower = tagName.map towlower) :
    text.length = 24 := by
  have hlen := congrArg List.length h
  rw [length_map, length_map, tagName_length] at hlen
  exact hlen

theorem wcsnicmp_front {front s : List WChar} (h : 92 ∉ front) :
    wcsnicmp towlower (front ++ 92 :: s) fileAconTag fileAconTagLen = true ↔
      front.map towlower = tagName.map towlower := by
  rw [wcsnicmp_iff, tag_eq, map_append]
  refine ⟨fun heq => ?_, fun heq => ?_⟩
  · have hwhole : (front ++ 92 :: s).map towlower = tagName.map towlower ++
        (towlower 92 :: ((front ++ 92 :: s).drop fileAconTagLen).map towlower) := by
      rw [← take_append_drop fileAconTagLen (front ++ 92 :: s), map_append, heq,
        take_append_drop, append_assoc]
      rfl
    rw [map_append, map_cons] at hwhole
    exact (split_unique (plain_map hlower h) (plain_map hlower tagName_plain) hwhole).1
  · have hlen := length_of_tagName heq
    have htake : (front ++ 92 :: s).take fileAconTagLen = front ++ [92] := by
      show (front ++ 92 :: s).take (24 + 1) = front ++ [92]
      rw [← hlen, take_length_add_append]
      rfl
    rw [htake, map_append, heq]

omit hlower in
theorem endsInTag_cons {c : WChar} (h : (c :: text).map towlower ≠
    tagName.map towlower) : EndsInTag towlower (c :: text) ↔ EndsInTag towlower text := by
  unfold EndsInTag
  have hshort : ∀ {t : List WChar}, t.length < 24 →
      t.map towlower ≠ tagName.map towlower := by
    intro t ht heq
    have := length_of_tagName heq
    omega
  by_cases hlen : text.length < 24
  · have hzero : (c :: text).length - 24 = 0 := by
      rw [length_cons]
      omega
    have hzero' : text.length - 24 = 0 := by omega
    rw [hzero, hzero']
    exact iff_of_false h (hshort hlen)
  · have hsucc : (c :: text).length - 24 = text.length - 24 + 1 := by
      rw [length_cons]
      omega
    rw [hsucc, drop_succ_cons]

omit hlower in
theorem endsInTag_of_eq (h : text.map towlower = tagName.map towlower) :
    EndsInTag towlower text := by
  unfold EndsInTag
  rw [length_of_tagName h]
  exact h

theorem aconSplit_backslash (s : List WChar) :
    aconSplit towlower (92 :: s) = aconSplit towlower s := by
  rw [aconSplit_cons, if_neg]
  intro htag
  have hname : ([] : List WChar).map towlower = tagName.map towlower :=
    (wcsnicmp_front hlower not_mem_nil).mp htag
  exact absurd (length_of_tagName hname) (by decide)

theorem aconSplit_front {front s : List WChar} (h : 92 ∉ front) :
    (EndsInTag towlower front →
      aconSplit towlower (front ++ 92 :: s) = some (s.dropWhile (· ≠ 92))) ∧
    (¬EndsInTag towlower front →
      aconSplit towlower (front ++ 92 :: s) = aconSplit towlower s) := by
  induction front with
  | nil =>
    refine ⟨fun hends => ?_, fun _ => aconSplit_backslash hlower s⟩
    exact absurd (length_of_tagName hends) (by decide)
  | cons c front ih =>
    obtain ⟨ihends, ihnot⟩ := ih fun hmem => h (mem_cons_of_mem c hmem)
    have htag := wcsnicmp_front hlower (s := s) h
    rw [cons_append, aconSplit_cons]
    by_cases hname : (c :: front).map towlower = tagName.map towlower
    · have hlen := length_of_tagName hname
      have hdrop : (c :: (front ++ 92 :: s)).drop fileAconTagLen = s := by
        show ((c :: front) ++ 92 :: s).drop (24 + 1) = s
        rw [← hlen, drop_length_add_append]
        rfl
      refine ⟨fun _ => ?_, fun hnot => absurd (endsInTag_of_eq hname) hnot⟩
      rw [if_pos (show wcsnicmp towlower (c :: (front ++ 92 :: s)) _ _ = true from
        htag.mpr hname), hdrop]
    · have hnot : ¬wcsnicmp towlower (c :: (front ++ 92 :: s)) fileAconTag fileAconTagLen = true :=
        fun hyes => hname (htag.mp hyes)
      rw [endsInTag_cons hname, if_neg hnot]
      exact ⟨ihends, ihnot⟩

omit hlower in
theorem aconSplit_congr {s t : List WChar} (h : s.map towlower = t.map towlower) :
    aconSplit towlower s = none → aconSplit towlower t = none := by
  induction s generalizing t with
  | nil =>
    intro _
    rw [map_eq_nil_iff.mp h.symm]
    rfl
  | cons c s ih =>
    cases t with
    | nil => exact (nomatch h)
    | cons d t =>
      rw [aconSplit_cons, aconSplit_cons]
      intro hnone
      split_ifs at hnone with htag
      have htag' : ¬wcsnicmp towlower (d :: t) fileAconTag fileAconTagLen = true := by
        rw [wcsnicmp_iff, map_take, ← h, ← map_take, ← wcsnicmp_iff]
        exact htag
      rw [if_neg htag']
      exact ih (List.cons.inj h).2 hnone

end Split

/-! ### Names -/

section Names

variable (towlower : WChar → WChar)

def plainBox (box : List WChar) : Dll := { boxIpcPath := box }

/-- What is written behind the flat path of the box. -/
def restOf (box : List WChar) (c : WChar) (tail : List WChar) : List WChar :=
  if wcsnicmp towlower tail (flatten box) (flatten box).length then
    tail.drop (flatten box).length
  else c :: tail

def nameWith (box : List WChar) (pipeType : PipeType) (acon rest : List WChar) : List WChar :=
  devicePrefix pipeType ++ (acon ++ 92 :: (flatten box ++ rest))

/-- `suffix`, at the last backslash of the device prefix -/
def suffixOf (pipeType : PipeType) (truePath : List WChar) : List WChar :=
  truePath.drop (devicePrefix pipeType).length

def Boxed (box : List WChar) (pipeType : PipeType) (truePath name : List WChar) : Prop :=
  ∃ rest, name = nameWith box pipeType (parts towlower (suffixOf pipeType truePath)).1 rest ∧
    (rest = [] ∨ ∃ r, rest = 92 :: r)

/-- The name is boxed, nothing outside of the path is read for it, and it is its own boxed name. -/
def Keeps (box : List WChar) (pipeType : PipeType) (truePath : List WChar) : Prop :=
  ∃ name, getBoxedPipeName towlower (plainBox box) truePath pipeType = .ok (some name) ∧
    Boxed towlower box pipeType truePath name ∧
    getBoxedPipeName towlower (plainBox box) name pipeType = .ok (some name)

/-- No name of one box is a name of the other. -/
def Apart (box box' : List WChar) : Prop :=
  ∀ pipeType pipeType' truePath truePath' name, Begins towlower pipeType truePath →
    Begins towlower pipeType' truePath' →
    getBoxedPipeName towlower (plainBox box) truePath pipeType = .ok (some name) →
    getBoxedPipeName towlower (plainBox box') truePath' pipeType' ≠ .ok (some name)

/-- When a path keeps to the box: something is behind the SID, what looks like the name of the box
is all of one name, and the path of the box does not make a tag. -/
structure Fits (box : List WChar) (pipeType : PipeType) (truePath : List WChar) : Prop where
  pipe : (parts towlower (suffixOf pipeType truePath)).2 ≠ []
  whole : ∀ tail, (parts towlower (suffixOf pipeType truePath)).2.tail = tail →
    wcsnicmp towlower tail (flatten box) (flatten box).length = true →
      tail.drop (flatten box).length = [] ∨ ∃ r, tail.drop (flatten box).length = 92 :: r
  tag : aconSplit towlower (suffixOf pipeType truePath) = none →
    wcsnicmp towlower (suffixOf pipeType truePath).tail (flatten box) (flatten box).length = false →
      EndsInTag towlower (flatten box) →
        (92 :: flatten box) <+: (suffixOf pipeType truePath).tail.dropWhile (· ≠ 92)

/-- When two boxes are apart: the flat path of neither begins that of the other, or ends in the
name of the tag. -/
structure Separate (box box' : List WChar) : Prop where
  left : ¬flatten box <+: flatten box'
  right : ¬flatten box' <+: flatten box
  tag : ¬EndsInTag towlower (flatten box)
  tag' : ¬EndsInTag towlower (flatten box')

variable {towlower}

theorem flatten_plain (box : List WChar) : 92 ∉ flatten box := by
  intro hmem
  obtain ⟨c, -, hc⟩ := mem_map.mp hmem
  by_cases h : c = 92
  · rw [if_pos h] at hc
    exact absurd hc (by decide)
  · rw [if_neg h] at hc
    exact h hc

theorem suffixOf_append (pipeType : PipeType) (s : List WChar) :
    suffixOf pipeType (devicePrefix pipeType ++ s) = s := drop_left

variable {box : List WChar}

theorem getBoxedPipeName_eq {pipeType : PipeType} (h : pipeType ≠ .other) (truePath : List WChar) :
    getBoxedPipeName towlower (plainBox box) truePath pipeType =
      match (parts towlower (suffixOf pipeType truePath)).2 with
      | [] => .error .outside
      | c :: tail => .ok (some (nameWith box pipeType
          (parts towlower (suffixOf pipeType truePath)).1 (restOf towlower box c tail))) := by
  have hname : getBoxedPipeName towlower (plainBox box) truePath pipeType =
      boxedName towlower (plainBox box) pipeType (suffixOf pipeType truePath) := by
    cases pipeType with
    | namedPipe => rfl
    | mailSlot => rfl
    | other => exact absurd rfl h
  rw [hname]
  unfold boxedName
  cases hpipe : (parts towlower (suffixOf pipeType truePath)).2 with
  | nil => rfl
  | cons c tail =>
    show Except.ok (some (_ ++ _ ++ ([] ++ 92 :: flatten box ++ _))) = _
    rw [nil_append, append_assoc, cons_append]
    rfl

theorem getBoxedPipeName_of_parts {pipeType : PipeType} (h : pipeType ≠ .other)
    {truePath acon tail : List WChar} {c : WChar}
    (hparts : parts towlower (suffixOf pipeType truePath) = (acon, c :: tail)) :
    getBoxedPipeName towlower (plainBox box) truePath pipeType =
      .ok (some (nameWith box pipeType acon (restOf towlower box c tail))) := by
  rw [getBoxedPipeName_eq h, hparts]

theorem parts_of_getBoxedPipeName {pipeType : PipeType}
    (h : pipeType ≠ .other) {truePath name : List WChar}
    (hname : getBoxedPipeName towlower (plainBox box) truePath pipeType = .ok (some name)) :
    ∃ acon c tail, parts towlower (suffixOf pipeType truePath) = (acon, c :: tail) ∧
      name = nameWith box pipeType acon (restOf towlower box c tail) := by
  rw [getBoxedPipeName_eq h] at hname
  cases hpipe : (parts towlower (suffixOf pipeType truePath)).2 with
  | nil =>
    rw [hpipe] at hname
    exact (nomatch hname)
  | cons c tail =>
    rw [hpipe] at hname
    exact ⟨_, c, tail, Prod.ext rfl hpipe, (Option.some.inj (Except.ok.inj hname)).symm⟩

theorem restOf_flat (box rest : List WChar) :
    restOf towlower box 92 (flatten box ++ rest) = rest := by
  have hskip : wcsnicmp towlower (flatten box ++ rest) (flatten box)
      (flatten box).length = true := by
    rw [wcsnicmp_iff, take_left, take_length]
  unfold restOf
  rw [if_pos hskip, drop_left]

theorem getBoxedPipeName_nameWith {pipeType : PipeType}
    (h : pipeType ≠ .other) {acon rest : List WChar}
    (hparts : parts towlower (acon ++ 92 :: (flatten box ++ rest)) =
      (acon, 92 :: (flatten box ++ rest))) :
    getBoxedPipeName towlower (plainBox box) (nameWith box pipeType acon rest) pipeType =
      .ok (some (nameWith box pipeType acon rest)) := by
  have hsuffix : suffixOf pipeType (nameWith box pipeType acon rest) = _ := suffixOf_append _ _
  rw [getBoxedPipeName_of_parts h ((congrArg _ hsuffix).trans hparts), restOf_flat]

variable (hlower : ∀ c, towlower c = towlower 92 → c = 92)

include hlower

theorem Begins.suffix {pipeType : PipeType} {truePath : List WChar}
    (h : Begins towlower pipeType truePath) :
    pipeType ≠ .other ∧ ∃ s, suffixOf pipeType truePath = 92 :: s := by
  have hat : ∀ (n : Nat) (pre : List WChar), pre.length = n →
      (truePath.take (n + 1)).map towlower = (pre ++ [92]).map towlower →
        ∃ s, truePath.drop n = 92 :: s := by
    intro n pre hpre heq
    have hdrop : ((truePath.take (n + 1)).map towlower).drop n = [towlower 92] := by
      rw [heq, map_append, ← hpre]
      exact drop_left' (length_map towlower)
    rw [← map_drop, drop_take, Nat.add_sub_cancel_left] at hdrop
    cases hs : truePath.drop n with
    | nil =>
      rw [hs] at hdrop
      exact (nomatch hdrop)
    | cons c s =>
      rw [hs] at hdrop
      exact ⟨s, by rw [hlower c (List.cons.inj hdrop).1]⟩
  cases pipeType with
  | namedPipe =>
    exact ⟨PipeType.noConfusion, hat 17 fileNamedPipe.dropLast (by decide) (wcsnicmp_iff.mp h)⟩
  | mailSlot =>
    exact ⟨PipeType.noConfusion, hat 16 fileMailSlot.dropLast (by decide) (wcsnicmp_iff.mp h)⟩
  | other => exact h.elim

omit hlower in
theorem begins_device {pipeType : PipeType} (h : pipeType ≠ .other) (s : List WChar) :
    Begins towlower pipeType (devicePrefix pipeType ++ 92 :: s) := by
  cases pipeType with
  | namedPipe => exact wcsnicmp_iff.mpr rfl
  | mailSlot => exact wcsnicmp_iff.mpr rfl
  | other => exact absurd rfl h

theorem parts_boxed {box s acon : List WChar} {c : WChar} {tail : List WChar}
    (hs : ∃ s', s = 92 :: s') (hparts : parts towlower s = (acon, c :: tail))
    (h : aconSplit towlower s = none →
      wcsnicmp towlower tail (flatten box) (flatten box).length = false →
        ¬EndsInTag towlower (flatten box)) :
    parts towlower (acon ++ 92 :: (flatten box ++ restOf towlower box c tail)) =
      (acon, 92 :: (flatten box ++ restOf towlower box c tail)) := by
  rcases parts_eq s with ⟨hnone, heq⟩ | ⟨acon', pipe, hsplit, hsome, heq, -⟩
  · obtain ⟨s', rfl⟩ := hs
    rw [hparts] at heq
    obtain ⟨rfl, hcons⟩ := Prod.mk.inj heq
    cases hcons
    refine parts_none (s := 92 :: (flatten box ++ restOf towlower box 92 tail)) ?_
    cases hskip : wcsnicmp towlower tail (flatten box) (flatten box).length with
    | true =>
      -- The letters of the box replace letters that are the same to the comparison.
      refine aconSplit_congr ?_ hnone
      have hfront : (tail.take (flatten box).length).map towlower = (flatten box).map towlower := by
        have := wcsnicmp_iff.mp hskip
        rw [take_length] at this
        exact this
      unfold restOf
      rw [if_pos hskip, map_cons, map_cons, map_append, ← hfront,
        ← map_append, take_append_drop]
    | false =>
      have hrest : restOf towlower box 92 tail = 92 :: tail :=
        if_neg (hskip ▸ Bool.false_ne_true)
      rw [hrest, aconSplit_backslash hlower,
        (aconSplit_front hlower (flatten_plain box)).2 (h hnone hskip), ← hnone]
      exact (aconSplit_backslash hlower tail).symm
  · rw [hparts] at heq
    cases heq
    rw [hsplit] at hsome
    exact parts_append hsome (.inr ⟨_, rfl⟩)

omit hlower in
theorem nameWith_injective {box acon rest rest' : List WChar} {pipeType : PipeType}
    (h : nameWith box pipeType acon rest = nameWith box pipeType acon rest') : rest = rest' := by
  have htail := append_cancel_left (append_cancel_left h)
  exact append_cancel_left (List.cons.inj htail).2

omit hlower in
theorem parts_begins {s acon tail : List WChar} {c : WChar} (hs : ∃ s', s = 92 :: s')
    (hparts : parts towlower s = (acon, c :: tail)) : c = 92 := by
  rcases parts_eq s with ⟨-, heq⟩ | ⟨acon', pipe, -, -, heq, hpipe⟩
  · obtain ⟨s', rfl⟩ := hs
    rw [hparts] at heq
    exact (List.cons.inj (Prod.mk.inj heq).2).1
  · rw [hparts] at heq
    rcases hpipe with rfl | ⟨p, rfl⟩
    · exact (nomatch (Prod.mk.inj heq).2)
    · exact (List.cons.inj (Prod.mk.inj heq).2).1

theorem aconSplit_made {box tail : List WChar} (h : EndsInTag towlower (flatten box)) :
    aconSplit towlower (92 :: (flatten box ++ 92 :: tail)) = some (tail.dropWhile (· ≠ 92)) := by
  rw [aconSplit_backslash hlower]
  exact (aconSplit_front hlower (flatten_plain box)).1 h

theorem getBoxedPipeName_made {box tail : List WChar} {pipeType : PipeType}
    (ht : pipeType ≠ .other) (h : EndsInTag towlower (flatten box)) :
    getBoxedPipeName towlower (plainBox box) (nameWith box pipeType [] (92 :: tail)) pipeType =
      .ok (some (nameWith box pipeType [] (92 :: tail))) ↔
    (92 :: flatten box) <+: tail.dropWhile (· ≠ 92) := by
  have hsuffix : suffixOf pipeType (nameWith box pipeType [] (92 :: tail)) =
      92 :: (flatten box ++ 92 :: tail) := suffixOf_append _ _
  have hmade : aconSplit towlower (92 :: (flatten box ++ 92 :: tail)) =
      some (tail.dropWhile (· ≠ 92)) := aconSplit_made hlower h
  rcases parts_eq (92 :: (flatten box ++ 92 :: tail)) with
    ⟨hnone, -⟩ | ⟨acon, pipe, hsplit, hsome, hparts, -⟩
  · exact absurd (hmade.symm.trans hnone) (Option.some_ne_none _)
  have hpipe : tail.dropWhile (· ≠ 92) = pipe := Option.some.inj (hmade.symm.trans hsome)
  rw [hpipe]
  refine ⟨fun hname => ?_, fun hbegins => ?_⟩
  · obtain ⟨acon', c, tail', hparts', heq⟩ := parts_of_getBoxedPipeName ht hname
    rw [hsuffix, hparts] at hparts'
    cases hparts'
    have hcancel : 92 :: (flatten box ++ 92 :: tail) =
        acon ++ 92 :: (flatten box ++ restOf towlower box c tail') := append_cancel_left heq
    rw [hsplit] at hcancel
    exact ⟨_, (append_cancel_left hcancel).symm⟩
  · obtain ⟨r, hr⟩ := hbegins
    have hparts' : parts towlower (suffixOf pipeType (nameWith box pipeType [] (92 :: tail))) =
        (acon, 92 :: (flatten box ++ r)) := by
      rw [hsuffix, hparts, ← hr]
      rfl
    rw [getBoxedPipeName_of_parts ht hparts', restOf_flat]
    have heq : nameWith box pipeType acon r = nameWith box pipeType [] (92 :: tail) := by
      show devicePrefix pipeType ++ (acon ++ ((92 :: flatten box) ++ r)) =
        devicePrefix pipeType ++ (92 :: (flatten box ++ 92 :: tail))
      rw [hr, hsplit]
    rw [heq]

theorem keeps_iff {pipeType : PipeType} {truePath : List WChar}
    (hbegins : Begins towlower pipeType truePath) :
    Keeps towlower box pipeType truePath ↔ Fits towlower box pipeType truePath := by
  obtain ⟨ht, hs⟩ := hbegins.suffix hlower
  refine ⟨fun ⟨name, hname, ⟨rest, hrest, hshape⟩, hself⟩ => ?_, fun hfits => ?_⟩
  · obtain ⟨acon, c, tail, hparts, heq⟩ := parts_of_getBoxedPipeName ht hname
    rw [hparts] at hrest
    have hrest' : restOf towlower box c tail = rest := nameWith_injective (heq.symm.trans hrest)
    refine ⟨?_, fun tail' htail hskip => ?_, fun hnone hskip hends => ?_⟩
    · rw [hparts]
      exact cons_ne_nil c tail
    · rw [hparts] at htail
      obtain rfl : tail = tail' := htail
      have hdrop : restOf towlower box c tail = tail.drop (flatten box).length := if_pos hskip
      rw [← hdrop, hrest']
      exact hshape
    · obtain ⟨s', hs'⟩ := hs
      rw [parts_none hnone, hs'] at hparts
      obtain ⟨rfl, hcons⟩ := Prod.mk.inj hparts
      obtain ⟨rfl, rfl⟩ := List.cons.inj hcons
      rw [hs'] at hskip ⊢
      have hno : restOf towlower box 92 s' = 92 :: s' := if_neg (hskip ▸ Bool.false_ne_true)
      rw [heq, hno] at hself
      exact (getBoxedPipeName_made hlower ht hends).mp hself
  · cases hpipe : (parts towlower (suffixOf pipeType truePath)).2 with
    | nil => exact absurd hpipe hfits.pipe
    | cons c tail =>
      have hparts : parts towlower (suffixOf pipeType truePath) =
        ((parts towlower (suffixOf pipeType truePath)).1, c :: tail) := Prod.ext rfl hpipe
      obtain rfl := parts_begins hs hparts
      refine ⟨_, getBoxedPipeName_of_parts ht hparts, ⟨_, rfl, ?_⟩, ?_⟩
      · cases hskip : wcsnicmp towlower tail (flatten box) (flatten box).length with
        | true =>
          have hdrop : restOf towlower box 92 tail = tail.drop (flatten box).length := if_pos hskip
          rw [hdrop]
          exact hfits.whole tail (by rw [hpipe]; rfl) hskip
        | false => exact .inr ⟨tail, if_neg (hskip ▸ Bool.false_ne_true)⟩
      · by_cases hmade : aconSplit towlower (suffixOf pipeType truePath) = none ∧
            wcsnicmp towlower tail (flatten box) (flatten box).length = false ∧
              EndsInTag towlower (flatten box)
        · obtain ⟨hnone, hskip, hends⟩ := hmade
          obtain ⟨s', hs'⟩ := hs
          have hfit := hfits.tag hnone
          rw [parts_none hnone, hs'] at hparts ⊢
          obtain rfl := (List.cons.inj (Prod.mk.inj hparts).2).2
          rw [hs'] at hfit
          have hno : restOf towlower box 92 s' = 92 :: s' := if_neg (hskip ▸ Bool.false_ne_true)
          rw [hno]
          exact (getBoxedPipeName_made hlower ht hends).mpr (hfit hskip hends)
        · refine getBoxedPipeName_nameWith ht (parts_boxed hlower hs hparts ?_)
          exact fun hnone hskip hends => hmade ⟨hnone, hskip, hends⟩

theorem getBoxedPipeName_prefixed {box box' : List WChar} {pipeType : PipeType}
    (ht : pipeType ≠ .other) (h : flatten box <+: flatten box') :
    getBoxedPipeName towlower (plainBox box)
      (devicePrefix pipeType ++ 92 :: flatten box') pipeType =
        .ok (some (devicePrefix pipeType ++ 92 :: flatten box')) := by
  obtain ⟨x, hx⟩ := h
  have hnone : aconSplit towlower (92 :: flatten box') = none := by
    rw [aconSplit_backslash hlower]
    exact aconSplit_plain hlower (flatten_plain box')
  have hparts : parts towlower (suffixOf pipeType (devicePrefix pipeType ++ 92 :: flatten box')) =
      ([], 92 :: (flatten box ++ x)) := by
    rw [suffixOf_append, parts_none hnone, hx]
  rw [getBoxedPipeName_of_parts ht hparts, restOf_flat, ← hx]
  rfl

/-- The names of a box whose path ends in the name of the tag are names of any box. -/
theorem getBoxedPipeName_tagged {box box' : List WChar} {pipeType : PipeType}
    (ht : pipeType ≠ .other) (h : EndsInTag towlower (flatten box)) :
    getBoxedPipeName towlower (plainBox box)
      (devicePrefix pipeType ++ 92 :: 92 :: flatten box') pipeType =
        .ok (some (nameWith box pipeType [] (92 :: 92 :: flatten box'))) ∧
    getBoxedPipeName towlower (plainBox box')
      (nameWith box pipeType [] (92 :: 92 :: flatten box')) pipeType =
        .ok (some (nameWith box pipeType [] (92 :: 92 :: flatten box'))) := by
  have hne : ∃ c l, flatten box = c :: l := by
    cases hflat : flatten box with
    | nil =>
      rw [hflat] at h
      exact absurd (length_of_tagName h) (by decide)
    | cons c l => exact ⟨c, l, rfl⟩
  refine ⟨?_, ?_⟩
  · have hnone : aconSplit towlower (92 :: 92 :: flatten box') = none := by
      rw [aconSplit_backslash hlower, aconSplit_backslash hlower]
      exact aconSplit_plain hlower (flatten_plain box')
    have hskip : ¬wcsnicmp towlower (92 :: flatten box') (flatten box)
        (flatten box).length = true := by
      obtain ⟨c, l, hflat⟩ := hne
      rw [wcsnicmp_iff, hflat]
      intro heq
      have hc := hlower c (List.cons.inj heq).1.symm
      exact flatten_plain box (hflat ▸ hc ▸ mem_cons_self)
    have hparts : parts towlower
        (suffixOf pipeType (devicePrefix pipeType ++ 92 :: 92 :: flatten box')) =
          ([], 92 :: 92 :: flatten box') := by
      rw [suffixOf_append, parts_none hnone]
    have hno : restOf towlower box 92
      (92 :: flatten box') = 92 :: 92 :: flatten box' := if_neg hskip
    rw [getBoxedPipeName_of_parts ht hparts, hno]
  · have hsuffix : suffixOf pipeType (nameWith box pipeType [] (92 :: 92 :: flatten box')) =
        92 :: (flatten box ++ 92 :: 92 :: flatten box') := suffixOf_append _ _
    have hmade : aconSplit towlower (92 :: (flatten box ++ 92 :: 92 :: flatten box')) =
        some ((92 :: flatten box').dropWhile (· ≠ 92)) := aconSplit_made hlower h
    rcases parts_eq (92 :: (flatten box ++ 92 :: 92 :: flatten box')) with
      ⟨hnone, -⟩ | ⟨acon, pipe, hsplit, hsome, hparts, -⟩
    · exact absurd (hmade.symm.trans hnone) (Option.some_ne_none _)
    have hpipe : pipe = 92 :: (flatten box' ++ []) := by
      rw [append_nil, ← Option.some.inj (hmade.symm.trans hsome), dropWhile_cons_of_neg]
      decide
    have hparts' : parts towlower
        (suffixOf pipeType (nameWith box pipeType [] (92 :: 92 :: flatten box'))) =
          (acon, 92 :: (flatten box' ++ [])) := by
      rw [hsuffix, hparts, hpipe]
    have heq : nameWith box' pipeType acon [] =
        nameWith box pipeType [] (92 :: 92 :: flatten box') := by
      show devicePrefix pipeType ++ (acon ++ 92 :: (flatten box' ++ [])) =
        devicePrefix pipeType ++ (92 :: (flatten box ++ 92 :: 92 :: flatten box'))
      rw [← hpipe, hsplit]
    rw [getBoxedPipeName_of_parts ht hparts', restOf_flat, heq]

theorem name_parts {box truePath name : List WChar} {pipeType : PipeType}
    (hbegins : Begins towlower pipeType truePath) (htag : ¬EndsInTag towlower (flatten box))
    (hname : getBoxedPipeName towlower (plainBox box) truePath pipeType = .ok (some name)) :
    ∃ s rest, name = devicePrefix pipeType ++ s ∧
      (parts towlower s).2 = 92 :: (flatten box ++ rest) := by
  obtain ⟨ht, hs⟩ := hbegins.suffix hlower
  obtain ⟨acon, c, tail, hparts, rfl⟩ := parts_of_getBoxedPipeName ht hname
  exact ⟨_, _, rfl, congrArg Prod.snd (parts_boxed hlower hs hparts fun _ _ => htag)⟩

omit hlower in
theorem devicePrefix_inj {pipeType pipeType' : PipeType} {s s' : List WChar}
    (h : devicePrefix pipeType ++ s = devicePrefix pipeType' ++ s') (ht : pipeType ≠ .other)
    (ht' : pipeType' ≠ .other) : s = s' := by
  have hat := congrArg (fun l => l[8]?) h
  cases pipeType with
  | namedPipe =>
    cases pipeType' with
    | namedPipe => exact append_cancel_left h
    | mailSlot => exact absurd (Option.some.inj hat) (by decide)
    | other => exact absurd rfl ht'
  | mailSlot =>
    cases pipeType' with
    | namedPipe => exact absurd (Option.some.inj hat) (by decide)
    | mailSlot => exact append_cancel_left h
    | other => exact absurd rfl ht'
  | other => exact absurd rfl ht

theorem apart_iff {box box' : List WChar} :
    Apart towlower box box' ↔ Separate towlower box box' := by
  have ht : PipeType.namedPipe ≠ .other := PipeType.noConfusion
  refine ⟨fun h => ?_, fun h pipeType pipeType' truePath truePath' name hb hb' hname hname' => ?_⟩
  · have hpath : ∀ s, Begins towlower .namedPipe (devicePrefix .namedPipe ++ 92 :: s) :=
      begins_device ht
    refine ⟨fun hpre => ?_, fun hpre => ?_, fun hends => ?_, fun hends => ?_⟩
    · exact h _ _ _ _ _ (hpath _) (hpath _) (getBoxedPipeName_prefixed hlower ht hpre)
        (getBoxedPipeName_prefixed hlower ht (prefix_refl _))
    · exact h _ _ _ _ _ (hpath _) (hpath _)
        (getBoxedPipeName_prefixed hlower ht (prefix_refl _))
        (getBoxedPipeName_prefixed hlower ht hpre)
    · obtain ⟨hname, hname'⟩ := @getBoxedPipeName_tagged towlower hlower box box' _ ht hends
      exact h _ _ _ _ _ (hpath _) (hpath _) hname hname'
    · obtain ⟨hname, hname'⟩ := @getBoxedPipeName_tagged towlower hlower box' box _ ht hends
      exact h _ _ _ _ _ (hpath _) (hpath _) hname' hname
  · obtain ⟨s, rest, rfl, hparts⟩ := name_parts hlower hb h.tag hname
    obtain ⟨s', rest', heq, hparts'⟩ := name_parts hlower hb' h.tag' hname'
    obtain rfl := devicePrefix_inj heq (hb.suffix hlower).1 (hb'.suffix hlower).1
    have hflat := (List.cons.inj (hparts.symm.trans hparts')).2
    have hpre : flatten box' <+: flatten box ++ rest := ⟨rest', hflat.symm⟩
    rcases prefix_or_prefix_of_prefix
      (prefix_append (flatten box) rest) hpre with hle | hle
    · exact h.left hle
    · exact h.right hle

end Names

/-- **Boxed pipe names.**  `towlower` makes no other character a backslash. -/
theorem boxedPipeName_keeps (towlower : WChar → WChar)
    (hlower : ∀ c, towlower c = towlower 92 → c = 92) :
    (∀ box pipeType truePath, Begins towlower pipeType truePath →
      (Keeps towlower box pipeType truePath ↔ Fits towlower box pipeType truePath)) ∧
    ∀ box box', Apart towlower box box' ↔ Separate towlower box box' :=
  ⟨fun _ _ _ hbegins => keeps_iff hlower hbegins, fun _ _ => apart_iff hlower⟩

theorem asciiLower_backslash (c : Nat) (h : asciiLower c = asciiLower 92) : c = 92 := by
  have h92 : asciiLower 92 = 92 := by decide
  unfold asciiLower at h
  by_cases hcase : 65 ≤ c ∧ c ≤ 90
  · rw [if_pos hcase] at h
    have hc : c = 60 := Nat.add_right_cancel (m := 32) h
    exact absurd hcase.1 (hc ▸ by decide)
  · rw [if_neg hcase] at h
    exact h

/-- The path of the session 1 of a box begins that of the session 10. -/
theorem boxedPipeName_keeps_sessions :
    ¬Apart asciiLower (wide "\\Sandbox\\u\\Box\\Session_1".toList)
      (wide "\\Sandbox\\u\\Box\\Session_10".toList) := by
  intro hapart
  have hseparate := ((boxedPipeName_keeps asciiLower asciiLower_backslash).2 _ _).mp hapart
  exact absurd (by decide) hseparate.left

/-- In the session 1 of the box, the name of a pipe that begins like the path of the session 10
stays as it is, and it is the name of a pipe of the session 10. -/
theorem session_names_meet :
    ¬∀ (box box' : List WChar), box ≠ box' →
      (∀ pipeType truePath, Begins asciiLower pipeType truePath →
        Keeps asciiLower box pipeType truePath) ∧ Apart asciiLower box box' := by
  intro hall
  have hapart := (hall (wide "\\Sandbox\\u\\Box\\Session_1".toList)
    (wide "\\Sandbox\\u\\Box\\Session_10".toList) (by decide)).2
  refine hapart .namedPipe .namedPipe
    (wide "\\Device\\NamedPipe\\_Sandbox_u_Box_Session_10\\p".toList)
    (wide "\\Device\\NamedPipe\\p".toList)
    (wide "\\device\\namedpipe\\_Sandbox_u_Box_Session_10\\p".toList) ?_ ?_ ?_ ?_
  · show wcsnicmp asciiLower _ fileNamedPipe 18 = true
    decide
  · show wcsnicmp asciiLower _ fileNamedPipe 18 = true
    decide
  · decide
  · decide

end Sandboxie.PipeName
