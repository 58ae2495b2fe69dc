import Mathlib.Data.List.Lex
import Sandboxie.Common.Text
import Sandboxie.Lib.SortedList

/-!
# The cached listing of a directory

`File_MergeCache` of `core/dll/file_dir.c` and its fallback `File_MergeCacheWin2000`, which read
all pages of a directory into a list that is sorted by the names without case.  There is memory for
the pool.

A name that is in the list already ends the whole listing in the one, as a volume that gives its
last page again and again is read that way; in the other it does not, so that such a volume is read
forever.  `mergeCache_iff` says what this leaves complete.
-/

namespace Sandboxie.MergeCache

open SortedList List

/-- `FILE_ID_BOTH_DIR_INFORMATION` without the offset to the next one; `info` is what stands in
front of `FileId`. -/
structure Entry (α : Type) where
  name : List WChar
  fileId : UInt64
  info : α
deriving DecidableEq

inductive Status
  | success
  | noMoreFiles
  | noSuchFile
  | invalidParameter
  | invalidInfoClass
  | invalidLevel
  | notImplemented
  | bufferOverflow
  | other (status : UInt32)
deriving DecidableEq

abbrev Page (α : Type) := { page : List (Entry α) // page ≠ [] }

/-- What `NtQueryDirectoryFile` answers: a page, also one with `STATUS_BUFFER_OVERFLOW`, or the
status that it fails with. -/
inductive Answer (α : Type)
  | filled (overflow : Bool) (page : Page α)
  | failed (status : Status)

/-! ### The code -/

/-- `RtlCompareUnicodeString` without case, by the difference of the first characters that are
not the same, or of the lengths. -/
def rtlCompareUnicodeString (upcase : WChar → WChar) : List WChar → List WChar → Int
  | c :: s, d :: t =>
    if upcase c = upcase d then rtlCompareUnicodeString upcase s t
    else (upcase c : Int) - upcase d
  | s, t => (s.length : Int) - t.length

section Code

variable {α : Type} (upcase : WChar → WChar)

/-- The walk of `File_MergeCache` to the place of an entry; an equal name is the end. -/
def insertEntry (e : Entry α) : List (Entry α) → Option (List (Entry α))
  | [] => some [e]
  | b :: rest =>
    let cmp := rtlCompareUnicodeString upcase b.name e.name
    if cmp = 0 then none
    else if cmp > 0 then some (e :: b :: rest)
    else (insertEntry e rest).map (b :: ·)

/-- The entries of a page, and whether one of them was the end. -/
def insertPage : List (Entry α) → List (Entry α) → List (Entry α) × Bool
  | [], cache => (cache, false)
  | e :: rest, cache =>
    match insertEntry upcase e cache with
    | none => (cache, true)
    | some cache => insertPage rest cache

/-- The walk of `File_MergeCacheWin2000`. -/
def insertEntryWin2000 (e : Entry α) : List (Entry α) → List (Entry α)
  | [] => [e]
  | b :: rest =>
    if rtlCompareUnicodeString upcase b.name e.name > 0 then e :: b :: rest
    else b :: insertEntryWin2000 e rest

/-- The entry that is made of one without a `FileId`. -/
def withoutId (e : Entry α) : Entry α := { e with fileId := 0 }

/-- The status in front of the branches on it: a page that was filled is a success. -/
def read : Answer α → Except Status (Page α)
  | .filled _ page => .ok page
  | .failed status => .error status

/-- `File_MergeCacheWin2000`, from the page at a position on; `query` is asked for the class and
the position, and `fuel` is a number of queries. -/
def mergeCacheWin2000 (query : Bool → Nat → Answer α) :
    Nat → Nat → List (Entry α) → Option (Status × List (Entry α))
  | 0, _, _ => none
  | fuel + 1, pos, cache =>
    match read (query false pos) with
    | .error status => some (status, cache)
    | .ok page =>
      mergeCacheWin2000 query fuel (pos + 1)
        (page.val.foldl (fun cache e => insertEntryWin2000 upcase (withoutId e) cache) cache)

def finish (status : Status) : Status :=
  if status = .noMoreFiles ∨ status = .noSuchFile then .success else status

/-- The loop of `File_MergeCache`. -/
def mergeLoop (query : Bool → Nat → Answer α) :
    Nat → Nat → List (Entry α) → Option (Status × List (Entry α))
  | 0, _, _ => none
  | fuel + 1, pos, cache =>
    match read (query true pos) with
    | .error status =>
      if status = .invalidParameter ∨ status = .invalidInfoClass ∨ status = .invalidLevel then
        (mergeCacheWin2000 upcase query fuel pos cache).map fun r => (finish r.1, r.2)
      else some (finish status, cache)
    | .ok page =>
      match insertPage upcase page.val cache with
      | (cache, true) => some (finish .noMoreFiles, cache)
      | (cache, false) => mergeLoop query fuel (pos + 1) cache

/-- `File_MergeCache`: the status, and the list when one is built.  `tagStatus` is what the query
for the tag of the directory answers. -/
def mergeCache (query : Bool → Nat → Answer α) (tagStatus : Status) (forceCache : Bool)
    (fuel : Nat) : Option (Status × Option (List (Entry α))) :=
  if !forceCache && tagStatus ≠ .invalidParameter && tagStatus ≠ .notImplemented then
    some (tagStatus, none)
  else (mergeLoop upcase query fuel 0 []).map fun r => (r.1, some r.2)

end Code

/-! ### Directories -/

/-- How the pages of a directory end: with a status, or never. -/
inductive Ending
  /-- `STATUS_NO_MORE_FILES`, or `STATUS_NO_SUCH_FILE` where there is no page -/
  | ends
  /-- the last page again and again -/
  | repeats
deriving DecidableEq

/-- A status that says that there are no ids. -/
abbrev Refusal :=
  { s : Status // s = .invalidParameter ∨ s = .invalidInfoClass ∨ s = .invalidLevel }

/-- A directory: its pages, how they end, and the answer to a query with ids, if it does not know
these. -/
structure Directory (α : Type) where
  pages : List (Bool × Page α)
  ending : Ending
  refusal : Option Refusal

namespace Directory

variable {α : Type} (d : Directory α)

def lastAnswer : Answer α :=
  match d.ending, d.pages.getLast? with
  | .repeats, some (overflow, page) => .filled overflow page
  | _, some _ => .failed .noMoreFiles
  | _, none => .failed .noSuchFile

def answer (pos : Nat) : Answer α :=
  match d.pages[pos]? with
  | some (overflow, page) => .filled overflow page
  | none => d.lastAnswer

def query (ids : Bool) (pos : Nat) : Answer α :=
  match ids, d.refusal with
  | true, some status => .failed status.val
  | _, _ => d.answer pos

def entries : List (Entry α) := d.pages.flatMap fun p => p.2.val

/-- The listing comes to an end: also without a page to repeat. -/
def Ends : Prop := d.ending = .ends ∨ d.pages = []

end Directory

/-! ### What is meant -/

section Meant

variable {α : Type} (upcase : WChar → WChar)

def key (e : Entry α) : List WChar := e.name.map upcase

/-- The list is sorted without case, and has each entry once. -/
def Complete (entries : List (Entry α)) (r : Status × List (Entry α)) : Prop :=
  r.1 = .success ∧ (r.2.Pairwise fun a b => key upcase a ≤ key upcase b) ∧ r.2.Perm entries

def Distinct (entries : List (Entry α)) : Prop :=
  entries.Pairwise fun a b => key upcase a ≠ key upcase b

instance (entries : List (Entry α)) : Decidable (Distinct upcase entries) :=
  inferInstanceAs (Decidable (List.Pairwise _ _))

end Meant

/-! ### The order of the names -/

section Order

variable {α : Type} {upcase : WChar → WChar}

theorem rtlCompareUnicodeString_spec : ∀ s t : List WChar,
    (rtlCompareUnicodeString upcase s t = 0 ↔ s.map upcase = t.map upcase) ∧
      (rtlCompareUnicodeString upcase s t > 0 ↔ t.map upcase < s.map upcase) := by
  intro s
  induction s with
  | nil =>
    intro t
    cases t with
    | nil => simp [rtlCompareUnicodeString]
    | cons d t => simp [rtlCompareUnicodeString]; omega
  | cons c s ih =>
    intro t
    cases t with
    | nil => simp [rtlCompareUnicodeString]; omega
    | cons d t =>
      rw [rtlCompareUnicodeString, map_cons, map_cons, cons_lt_cons_iff,
        cons_eq_cons]
      by_cases hc : upcase c = upcase d
      · rw [if_pos hc, (ih t).1, (ih t).2]
        simp [hc]
      · rw [if_neg hc]
        have hzero : ∀ a b : Nat, (a : Int) - b = 0 ↔ a = b := by omega
        have hpos : ∀ a b : Nat, (a : Int) - b > 0 ↔ b < a := by omega
        simp only [hc, Ne.symm hc, false_and, or_false, iff_false]
        exact ⟨fun h => hc ((hzero _ _).mp h), hpos _ _⟩

theorem insertEntryWin2000_eq (e : Entry α) (cache : List (Entry α)) :
    insertEntryWin2000 upcase e cache = insertBefore (key upcase) e cache := by
  induction cache with
  | nil => rfl
  | cons b rest ih =>
    have hpos := (@rtlCompareUnicodeString_spec upcase b.name e.name).2
    rw [insertEntryWin2000, insertBefore, ih]
    by_cases hlt : key upcase e < key upcase b
    · rw [if_pos (hpos.mpr hlt), if_pos hlt]
    · rw [if_neg fun hcmp => hlt (hpos.mp hcmp), if_neg hlt]

theorem insertEntry_new {e : Entry α} {cache : List (Entry α)}
    (h : ∀ b ∈ cache, key upcase b ≠ key upcase e) :
    insertEntry upcase e cache = some (insertBefore (key upcase) e cache) := by
  induction cache with
  | nil => rfl
  | cons b rest ih =>
    obtain ⟨hzero, hpos⟩ := @rtlCompareUnicodeString_spec upcase b.name e.name
    have hb := h b mem_cons_self
    rw [insertEntry, insertBefore, ih fun c hc => h c (mem_cons_of_mem b hc),
      if_neg fun heq => hb (hzero.mp heq)]
    by_cases hlt : key upcase e < key upcase b
    · rw [if_pos (hpos.mpr hlt), if_pos hlt]
    · rw [if_neg fun hcmp => hlt (hpos.mp hcmp), if_neg hlt]
      rfl

theorem insertEntry_same {e : Entry α} {cache : List (Entry α)}
    (hsorted : Ascending (key upcase) cache) (h : ∃ b ∈ cache, key upcase b = key upcase e) :
    insertEntry upcase e cache = none := by
  induction cache with
  | nil => exact absurd h (by simp)
  | cons b rest ih =>
    obtain ⟨hb, hrest⟩ := pairwise_cons.mp hsorted
    obtain ⟨hzero, hpos⟩ := @rtlCompareUnicodeString_spec upcase b.name e.name
    rw [insertEntry]
    by_cases heq : key upcase b = key upcase e
    · rw [if_pos (hzero.mpr heq)]
    · obtain ⟨c, hc, hkey⟩ := h
      have hc : c ∈ rest := (mem_cons.mp hc).resolve_left fun hcb => heq (hcb ▸ hkey)
      have hlt : ¬ key upcase e < key upcase b := not_lt.mpr (hkey ▸ (hb c hc).le)
      rw [if_neg fun hcmp => heq (hzero.mp hcmp), if_neg fun hcmp => hlt (hpos.mp hcmp),
        ih hrest ⟨c, hc, hkey⟩]
      rfl

end Order

/-! ### The entries of a page -/

section Page

variable {α : Type} {upcase : WChar → WChar}

/-- Names that differ without case, from each other and from those in the list. -/
def New (upcase : WChar → WChar) (es cache : List (Entry α)) : Prop :=
  Distinct upcase es ∧ ∀ e ∈ es, ∀ b ∈ cache, key upcase b ≠ key upcase e

theorem ascending_insertBefore {e : Entry α} {cache : List (Entry α)}
    (h : Ascending (key upcase) cache) (hnew : ∀ b ∈ cache, key upcase b ≠ key upcase e) :
    Ascending (key upcase) (insertBefore (key upcase) e cache) := by
  rw [insertBefore_eq_overlay hnew]
  refine ascending_overlay (fun b c hbc hb => ?_) (fun b hb => ?_) h
  · rw [← Option.some.inj hbc]
    exact hb
  · rw [← Option.some.inj hb]

theorem new_cons {e : Entry α} {es cache : List (Entry α)} :
    New upcase (e :: es) cache ↔ (∀ b ∈ cache, key upcase b ≠ key upcase e) ∧
      New upcase es (insertBefore (key upcase) e cache) := by
  have hmem : ∀ b, b ∈ insertBefore (key upcase) e cache ↔ b = e ∨ b ∈ cache := by
    intro b
    rw [(perm_insertBefore e cache).mem_iff, mem_cons]
  rw [New, New, Distinct, Distinct, pairwise_cons, forall_mem_cons]
  simp only [hmem]
  constructor
  · rintro ⟨⟨hhead, hes⟩, hfirst, hrest⟩
    refine ⟨hfirst, hes, fun d hd b hb => ?_⟩
    rcases hb with rfl | hb
    · exact hhead d hd
    · exact hrest d hd b hb
  · rintro ⟨hfirst, hes, hrest⟩
    exact ⟨⟨fun d hd => hrest d hd e (Or.inl rfl), hes⟩, hfirst,
      fun d hd b hb => hrest d hd b (Or.inr hb)⟩

theorem insertPage_new {es : List (Entry α)} : ∀ {cache : List (Entry α)},
    Ascending (key upcase) cache → New upcase es cache →
      ∃ cache', insertPage upcase es cache = (cache', false) ∧ Ascending (key upcase) cache' ∧
        cache'.Perm (es ++ cache) := by
  induction es with
  | nil => exact fun {cache} h _ => ⟨cache, rfl, h, List.Perm.refl _⟩
  | cons e es ih =>
    intro cache h hnew
    obtain ⟨hfirst, hrest⟩ := new_cons.mp hnew
    obtain ⟨cache', hpage, hsorted, hperm⟩ := ih (ascending_insertBefore h hfirst) hrest
    refine ⟨cache', ?_, hsorted, ?_⟩
    · rw [insertPage, insertEntry_new hfirst]
      exact hpage
    · exact hperm.trans (((perm_insertBefore e cache).append_left es).trans perm_middle)

theorem insertPage_same {es : List (Entry α)} : ∀ {cache : List (Entry α)},
    Ascending (key upcase) cache → ¬New upcase es cache →
      ∃ cache', insertPage upcase es cache = (cache', true) ∧
        cache'.length < es.length + cache.length := by
  induction es with
  | nil =>
    exact fun {cache} _ hnot => absurd ⟨List.Pairwise.nil, fun e he => nomatch he⟩ hnot
  | cons e es ih =>
    intro cache h hnot
    rw [length_cons, insertPage]
    by_cases hsame : ∃ b ∈ cache, key upcase b = key upcase e
    · rw [insertEntry_same h hsame]
      exact ⟨cache, rfl, by omega⟩
    have hfirst : ∀ b ∈ cache, key upcase b ≠ key upcase e := by
      simpa only [not_exists, not_and] using hsame
    obtain ⟨cache', hpage, hlen⟩ := ih (ascending_insertBefore h hfirst)
      fun hrest => hnot (new_cons.mpr ⟨hfirst, hrest⟩)
    rw [length_insertBefore] at hlen
    refine ⟨cache', ?_, by omega⟩
    rw [insertEntry_new hfirst]
    exact hpage

theorem insertPage_append (es es' cache : List (Entry α)) :
    insertPage upcase (es ++ es') cache =
      match insertPage upcase es cache with
      | (cache, true) => (cache, true)
      | (cache, false) => insertPage upcase es' cache := by
  induction es generalizing cache with
  | nil => rfl
  | cons e es ih =>
    rw [cons_append, insertPage, insertPage]
    cases insertEntry upcase e cache with
    | none => rfl
    | some cache => exact ih cache

theorem foldl_insertEntryWin2000 (es : List (Entry α)) : ∀ {cache : List (Entry α)},
    (cache.Pairwise fun a b => key upcase a ≤ key upcase b) →
      ((es.foldl (fun cache e => insertEntryWin2000 upcase (withoutId e) cache) cache).Pairwise
        fun a b => key upcase a ≤ key upcase b) ∧
      (es.foldl (fun cache e => insertEntryWin2000 upcase (withoutId e) cache) cache).Perm
        (es.map withoutId ++ cache) := by
  induction es with
  | nil => exact fun {cache} h => ⟨h, List.Perm.refl _⟩
  | cons e es ih =>
    intro cache h
    rw [foldl_cons, insertEntryWin2000_eq]
    obtain ⟨hsorted, hperm⟩ := ih (pairwise_insertBefore (withoutId e) h)
    exact ⟨hsorted, hperm.trans
      (((perm_insertBefore (withoutId e) cache).append_left _).trans perm_middle)⟩

end Page

/-! ### The loops -/

section Loops

variable {α : Type} {upcase : WChar → WChar}

variable {query : Bool → Nat → Answer α} {fuel : Nat} {r : Status × List (Entry α)}

theorem mergeCacheWin2000_mono : ∀ {pos : Nat} {cache : List (Entry α)} (more : Nat),
      mergeCacheWin2000 upcase query fuel pos cache = some r →
        mergeCacheWin2000 upcase query (fuel + more) pos cache = some r := by
  induction fuel with
  | zero => exact fun {pos cache} more h => nomatch h
  | succ fuel ih =>
    intro pos cache more h
    rw [Nat.add_right_comm, mergeCacheWin2000]
    rw [mergeCacheWin2000] at h
    cases hread : read (query false pos) with
    | error status =>
      rw [hread] at h
      exact h
    | ok page =>
      rw [hread] at h
      exact ih more h

theorem mergeLoop_mono : ∀ {pos : Nat} {cache : List (Entry α)} (more : Nat),
      mergeLoop upcase query fuel pos cache = some r →
        mergeLoop upcase query (fuel + more) pos cache = some r := by
  induction fuel with
  | zero => exact fun {pos cache} more h => nomatch h
  | succ fuel ih =>
    intro pos cache more h
    rw [Nat.add_right_comm, mergeLoop]
    rw [mergeLoop] at h
    cases hread : read (query true pos) with
    | error status =>
      rw [hread] at h
      dsimp only at h ⊢
      split at h
      next hrefused =>
        obtain ⟨r', hr', heq⟩ := Option.map_eq_some_iff.mp h
        rw [if_pos hrefused, mergeCacheWin2000_mono more hr', Option.map_some, heq]
      next hrefused =>
        rw [if_neg hrefused]
        exact h
    | ok page =>
      rw [hread] at h
      dsimp only at h ⊢
      cases hpage : insertPage upcase page.val cache with
      | mk cache' stop =>
        rw [hpage] at h
        cases stop with
        | true => exact h
        | false => exact ih more h

theorem mergeLoop_unique {fuel' pos : Nat}
    {cache : List (Entry α)} {r' : Status × List (Entry α)}
    (h : mergeLoop upcase query fuel pos cache = some r)
    (h' : mergeLoop upcase query fuel' pos cache = some r') : r = r' := by
  have heq := mergeLoop_mono fuel' h
  rw [Nat.add_comm, mergeLoop_mono fuel h'] at heq
  exact (Option.some.inj heq).symm

variable {d : Directory α}

theorem query_true (hids : d.refusal = none) (pos : Nat) : d.query true pos = d.answer pos := by
  simp only [Directory.query, hids]

theorem query_false (pos : Nat) : d.query false pos = d.answer pos := rfl

theorem answer_page {front rest : List (Bool × Page α)} {overflow : Bool} {page : Page α}
    (h : d.pages = front ++ (overflow, page) :: rest) :
    d.answer front.length = .filled overflow page := by
  have hpage : d.pages[front.length]? = some (overflow, page) := by
    rw [h, getElem?_append_right (Nat.le_refl _), Nat.sub_self]
    rfl
  rw [Directory.answer, hpage]

theorem answer_last {pos : Nat} (hpos : d.pages.length ≤ pos) : d.answer pos = d.lastAnswer := by
  rw [Directory.answer, getElem?_eq_none hpos]

theorem mergeLoop_pages (hids : d.refusal = none) (k : Nat) :
    ∀ {rest front : List (Bool × Page α)} {cache : List (Entry α)}, d.pages = front ++ rest →
      mergeLoop upcase d.query (rest.length + k) front.length cache =
        match insertPage upcase (rest.flatMap fun p => p.2.val) cache with
        | (cache, true) => some (.success, cache)
        | (cache, false) => mergeLoop upcase d.query k d.pages.length cache := by
  intro rest
  induction rest with
  | nil =>
    intro front cache h
    rw [append_nil] at h
    rw [h, length_nil, Nat.zero_add]
    rfl
  | cons p rest ih =>
    intro front cache h
    obtain ⟨overflow, page⟩ := p
    have hlen : ((overflow, page) :: rest).length + k = rest.length + k + 1 := by
      rw [length_cons, Nat.add_right_comm]
    rw [hlen, mergeLoop, query_true hids, answer_page h, flatMap_cons,
      insertPage_append]
    dsimp only [read]
    cases hpage : insertPage upcase page.val cache with
    | mk cache' stop =>
      cases stop with
      | true => rfl
      | false =>
        have hfront : d.pages = (front ++ [(overflow, page)]) ++ rest := by
          rw [h, append_assoc, singleton_append]
        have hlength : (front ++ [(overflow, page)]).length = front.length + 1 :=
          length_append
        rw [← hlength]
        exact ih hfront

theorem insertPage_again {page : Page α} {cache : List (Entry α)}
    (hsorted : Ascending (key upcase) cache) (h : ∀ e ∈ page.val, e ∈ cache) :
    insertPage upcase page.val cache = (cache, true) := by
  obtain ⟨e, es, hes⟩ := exists_cons_of_ne_nil page.property
  rw [hes, insertPage, insertEntry_same hsorted]
  exact ⟨e, h e (hes ▸ mem_cons_self), rfl⟩

theorem mergeLoop_eq (hids : d.refusal = none) :
    mergeLoop upcase d.query (d.pages.length + 1) 0 [] =
      some (.success, (insertPage upcase d.entries []).1) := by
  have hpages := @mergeLoop_pages α upcase d hids 1 d.pages [] [] rfl
  rw [length_nil] at hpages
  rw [hpages, ← Directory.entries]
  by_cases hnew : New upcase d.entries []
  · obtain ⟨cache, hpage, hsorted, hperm⟩ := insertPage_new List.Pairwise.nil hnew
    rw [hpage]
    show mergeLoop upcase d.query 1 d.pages.length cache = some (.success, cache)
    rw [mergeLoop, query_true hids, answer_last (Nat.le_refl _), Directory.lastAnswer]
    cases hending : d.ending with
    | ends => cases d.pages.getLast? <;> rfl
    | repeats =>
      cases hlast : d.pages.getLast? with
      | none => rfl
      | some last =>
        obtain ⟨overflow, page⟩ := last
        have hmem : ∀ e ∈ page.val, e ∈ cache := by
          intro e he
          rw [hperm.mem_iff, append_nil]
          exact mem_flatMap.mpr ⟨_, mem_of_getLast? hlast, he⟩
        dsimp only [read]
        rw [insertPage_again hsorted hmem]
        rfl
  · obtain ⟨cache, hpage, -⟩ := insertPage_same List.Pairwise.nil hnew
    rw [hpage]

theorem mergeCacheWin2000_pages (k : Nat) :
    ∀ {rest front : List (Bool × Page α)} {cache : List (Entry α)}, d.pages = front ++ rest →
      mergeCacheWin2000 upcase d.query (rest.length + k) front.length cache =
        mergeCacheWin2000 upcase d.query k d.pages.length
          ((rest.flatMap fun p => p.2.val).foldl
            (fun cache e => insertEntryWin2000 upcase (withoutId e) cache) cache) := by
  intro rest
  induction rest with
  | nil =>
    intro front cache h
    rw [append_nil] at h
    rw [h, length_nil, Nat.zero_add]
    rfl
  | cons p rest ih =>
    intro front cache h
    obtain ⟨overflow, page⟩ := p
    have hlen : ((overflow, page) :: rest).length + k = rest.length + k + 1 := by
      rw [length_cons, Nat.add_right_comm]
    rw [hlen, mergeCacheWin2000, query_false, answer_page h, flatMap_cons,
      foldl_append]
    have hfront : d.pages = (front ++ [(overflow, page)]) ++ rest := by
      rw [h, append_assoc, singleton_append]
    have hlength : (front ++ [(overflow, page)]).length = front.length + 1 := length_append
    rw [← hlength]
    exact ih hfront

def listWin2000 (upcase : WChar → WChar) (d : Directory α) : List (Entry α) :=
  d.entries.foldl (fun cache e => insertEntryWin2000 upcase (withoutId e) cache) []

theorem mergeCacheWin2000_eq (hends : d.Ends) :
    ∃ status, finish status = .success ∧
      mergeCacheWin2000 upcase d.query (d.pages.length + 1) 0 [] =
        some (status, listWin2000 upcase d) := by
  have hpages := @mergeCacheWin2000_pages α upcase d 1 d.pages [] [] rfl
  rw [length_nil] at hpages
  have hstatus : ∃ status, finish status = .success ∧ d.lastAnswer = .failed status := by
    rw [Directory.lastAnswer]
    rcases hends with hending | hnil
    · rw [hending]
      cases d.pages.getLast? with
      | none => exact ⟨_, rfl, rfl⟩
      | some last => exact ⟨_, rfl, rfl⟩
    · rw [hnil]
      cases d.ending <;> exact ⟨_, rfl, rfl⟩
  obtain ⟨status, hfinish, hlast⟩ := hstatus
  refine ⟨status, hfinish, ?_⟩
  rw [hpages, mergeCacheWin2000, query_false, answer_last (Nat.le_refl _), hlast]
  rfl

theorem mergeCacheWin2000_none (hends : ¬d.Ends) (fuel : Nat) : ∀ (pos : Nat)
    (cache : List (Entry α)), mergeCacheWin2000 upcase d.query fuel pos cache = none := by
  have hanswer : ∀ pos, ∃ page, read (d.query false pos) = .ok page := by
    intro pos
    rw [query_false, Directory.answer]
    cases d.pages[pos]? with
    | some page => exact ⟨_, rfl⟩
    | none =>
      rw [Directory.Ends, not_or] at hends
      rw [Directory.lastAnswer]
      cases hending : d.ending with
      | ends => exact absurd hending hends.1
      | repeats =>
        cases hlast : d.pages.getLast? with
        | none => exact absurd (getLast?_eq_none_iff.mp hlast) hends.2
        | some last => exact ⟨_, rfl⟩
  induction fuel with
  | zero => exact fun pos cache => rfl
  | succ fuel ih =>
    intro pos cache
    obtain ⟨page, hpage⟩ := hanswer pos
    rw [mergeCacheWin2000, hpage]
    exact ih _ _

end Loops

/-! ### What is complete -/

section Complete

variable {α : Type} (upcase : WChar → WChar) (d : Directory α) (tagStatus : Status)
  (forceCache : Bool)

/-- No list is built: the directory knows its tag, and so its files are sorted already. -/
def NoList : Prop :=
  forceCache = false ∧ tagStatus ≠ .invalidParameter ∧ tagStatus ≠ .notImplemented

/-- `File_MergeCache` comes to an end, and a list that it builds is complete. -/
def Builds : Prop :=
  ∃ fuel r, mergeCache upcase d.query tagStatus forceCache fuel = some r ∧
    ∀ cache, r.2 = some cache →
      Complete upcase (if d.refusal = none then d.entries else d.entries.map withoutId) (r.1, cache)

/-- `File_MergeCacheWin2000` comes to an end with a complete list. -/
def BuildsWin2000 : Prop :=
  ∃ fuel r, mergeCacheWin2000 upcase d.query fuel 0 [] = some r ∧
    Complete upcase (d.entries.map withoutId) (finish r.1, r.2)

variable {upcase d tagStatus forceCache}

theorem complete_listWin2000 :
    Complete upcase (d.entries.map withoutId) (.success, listWin2000 upcase d) := by
  obtain ⟨hsorted, hperm⟩ := @foldl_insertEntryWin2000 α upcase d.entries [] List.Pairwise.nil
  rw [append_nil] at hperm
  exact ⟨rfl, hsorted, hperm⟩

theorem buildsWin2000_iff : BuildsWin2000 upcase d ↔ d.Ends := by
  constructor
  · rintro ⟨fuel, r, hr, -⟩
    by_contra hends
    rw [mergeCacheWin2000_none hends] at hr
    cases hr
  · intro hends
    obtain ⟨status, hfinish, hr⟩ := @mergeCacheWin2000_eq α upcase d hends
    refine ⟨_, _, hr, ?_⟩
    rw [hfinish]
    exact complete_listWin2000

theorem complete_insertPage_iff :
    Complete upcase d.entries (.success, (insertPage upcase d.entries []).1) ↔
      Distinct upcase d.entries := by
  constructor
  · rintro ⟨-, -, hperm⟩
    by_contra hsame
    obtain ⟨cache, hpage, hlen⟩ := @insertPage_same α upcase d.entries [] List.Pairwise.nil
      fun hnew => hsame hnew.1
    rw [hpage] at hperm
    rw [← hperm.length_eq, length_nil, Nat.add_zero] at hlen
    exact Nat.lt_irrefl _ hlen
  · intro hdistinct
    obtain ⟨cache, hpage, hsorted, hperm⟩ := @insertPage_new α upcase d.entries []
      List.Pairwise.nil ⟨hdistinct, fun e _ b hb => nomatch hb⟩
    rw [hpage]
    rw [append_nil] at hperm
    exact ⟨rfl, hsorted.imp fun hlt => hlt.le, hperm⟩

theorem builds_iff_loop (h : ¬NoList tagStatus forceCache) :
    Builds upcase d tagStatus forceCache ↔ ∃ fuel r, mergeLoop upcase d.query fuel 0 [] = some r ∧
      Complete upcase (if d.refusal = none then d.entries else d.entries.map withoutId) r := by
  have hcall : ∀ fuel, mergeCache upcase d.query tagStatus forceCache fuel =
      (mergeLoop upcase d.query fuel 0 []).map fun r => (r.1, some r.2) := by
    intro fuel
    refine if_neg fun hcond => h ?_
    simpa [NoList, and_assoc] using hcond
  simp only [Builds, hcall]
  constructor
  · rintro ⟨fuel, r, hr, hcomplete⟩
    obtain ⟨r', hr', rfl⟩ := Option.map_eq_some_iff.mp hr
    exact ⟨fuel, r', hr', hcomplete _ rfl⟩
  · rintro ⟨fuel, r, hr, hcomplete⟩
    refine ⟨fuel, (r.1, some r.2), by rw [hr]; rfl, fun cache hcache => ?_⟩
    cases hcache
    exact hcomplete

theorem mergeLoop_refused {status : Status}
    (hstatus : status = .invalidParameter ∨ status = .invalidInfoClass ∨ status = .invalidLevel)
    (hrefusal : d.refusal = some ⟨status, hstatus⟩) (fuel : Nat) :
    mergeLoop upcase d.query (fuel + 1) 0 [] =
      (mergeCacheWin2000 upcase d.query fuel 0 []).map fun r => (finish r.1, r.2) := by
  have hquery : d.query true 0 = .failed status := by
    simp only [Directory.query, hrefusal]
  rw [mergeLoop, hquery]
  exact if_pos hstatus

/-- **When the listing is complete**: with ids, when the names differ without case, also where the
last page is repeated; without ids, and in the fallback by itself, when the pages end. -/
theorem mergeCache_iff (upcase : WChar → WChar) (d : Directory α) (tagStatus : Status)
    (forceCache : Bool) :
    (Builds upcase d tagStatus forceCache ↔ NoList tagStatus forceCache ∨
        if d.refusal = none then Distinct upcase d.entries else d.Ends) ∧
      (BuildsWin2000 upcase d ↔ d.Ends) := by
  refine ⟨?_, buildsWin2000_iff⟩
  by_cases hno : NoList tagStatus forceCache
  · refine iff_of_true ⟨0, (tagStatus, none), ?_, fun cache h => nomatch h⟩ (Or.inl hno)
    refine if_pos ?_
    simpa [NoList, and_assoc] using hno
  rw [or_iff_right hno, builds_iff_loop hno]
  cases hrefusal : d.refusal with
  | none =>
    rw [if_pos rfl, if_pos rfl, ← complete_insertPage_iff]
    constructor
    · rintro ⟨fuel, r, hr, hcomplete⟩
      rwa [mergeLoop_unique hr (mergeLoop_eq hrefusal)] at hcomplete
    · exact fun hcomplete => ⟨_, _, mergeLoop_eq hrefusal, hcomplete⟩
  | some status =>
    obtain ⟨status, hstatus⟩ := status
    rw [if_neg (fun h => nomatch h), if_neg (fun h => nomatch h), ← buildsWin2000_iff]
    constructor
    · rintro ⟨fuel, r, hr, hcomplete⟩
      cases fuel with
      | zero => cases hr
      | succ fuel =>
        rw [mergeLoop_refused hstatus hrefusal] at hr
        obtain ⟨r', hr', rfl⟩ := Option.map_eq_some_iff.mp hr
        exact ⟨fuel, r', hr', hcomplete⟩
    · rintro ⟨fuel, r, hr, hcomplete⟩
      refine ⟨fuel + 1, (finish r.1, r.2), ?_, hcomplete⟩
      rw [mergeLoop_refused hstatus hrefusal, hr]
      rfl

end Complete

/-- A directory with the files `a`, `A` and `b`. -/
def twoCases : Directory Unit :=
  ⟨[(false, ⟨[⟨[97], 1, ()⟩, ⟨[65], 2, ()⟩, ⟨[98], 3, ()⟩], by decide⟩)], .ends, none⟩

/-- Of three files one is listed. -/
theorem mergeCache_drops :
    mergeCache Text.asciiLower twoCases.query .invalidParameter false 2 =
        some (.success, some [⟨[97], 1, ()⟩]) ∧
      ¬Builds Text.asciiLower twoCases .invalidParameter false := by
  refine ⟨by decide, ?_⟩
  rw [builds_iff_loop (by simp [NoList])]
  rintro ⟨fuel, r, hr, hcomplete⟩
  rw [mergeLoop_unique hr (mergeLoop_eq rfl)] at hcomplete
  have hsame : ¬Distinct Text.asciiLower twoCases.entries := by decide
  exact hsame (complete_insertPage_iff.mp hcomplete)

end Sandboxie.MergeCache
