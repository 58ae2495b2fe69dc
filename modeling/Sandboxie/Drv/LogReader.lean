import Sandboxie.Drv.LogFifo

/-!
# Readers of the log buffer

A reader passes the number of the last entry that it got to `log_buffer_get_next` and gets
the next one.  `Ideal` is the reader that gets every entry still in the buffer once, in the
order of the pushes; `reader_run` says that the reader gets what it gets, as long as no push
that is not allowed to pop is turned away for lack of room (it would take a number without
leaving an entry), and the reader is not a whole turn of the numbers behind.
-/

namespace Sandboxie.LogBuff

open List

/-! ### The search -/

section Search

variable {buf : LogBuffer} {n : Nat}

theorem length_bytesOf_concat (es : List Entry) (e : Entry) :
    (bytesOf (es ++ [e])).length = (bytesOf es).length + e.bytes.length := by
  rw [bytesOf_append, bytesOf_singleton, length_append]

variable {es fs : List Entry} {e : Entry}

theorem Holds.eq_nil (h : Holds buf (es ++ e :: fs))
    (hend : (bytesOf (es ++ [e])).length = buf.bufferUsed) : fs = [] := by
  rw [h.used, show es ++ e :: fs = (es ++ [e]) ++ fs by simp, bytesOf_append _ fs,
    length_append] at hend
  cases fs with
  | nil => rfl
  | cons f fs =>
    have hfpos := f.length_pos
    rw [bytesOf_cons, length_append] at hend
    omega

theorem searchBack_step (h : Holds buf (es ++ e :: fs))
    (hnewest : fs = [] → e.seqNumber ≠ n) (hne : e.seqNumber ≠ (n + 1) % 2 ^ 32) (fuel : Nat) :
    searchBack n buf (fuel + 1) (bytesOf (es ++ [e])).length =
      searchBack n buf fuel (bytesOf es).length := by
  obtain ⟨ptr, hbefore, _⟩ := entryBefore_spec h
  have hpos := e.length_pos
  have hlength := length_bytesOf_concat es e
  have hlast : ¬ (e.seqNumber = n ∧ (bytesOf (es ++ [e])).length = buf.bufferUsed) := by
    rintro ⟨hseq, hused⟩
    exact hnewest (h.eq_nil hused) hseq
  rw [searchBack, if_neg (by omega), hbefore]
  dsimp only
  rw [if_neg hlast, if_neg hne, ← e.length_bytes, if_neg (by omega), hlength, Nat.add_sub_cancel]

theorem searchBack_skip : ∀ {gs : List Entry} {fuel : Nat},
    Holds buf (es ++ fs ++ gs) →
      (∀ e ∈ fs, e.seqNumber ≠ (n + 1) % 2 ^ 32) →
      (∀ e, (fs ++ gs).getLast? = some e → e.seqNumber ≠ n) →
      (bytesOf (es ++ fs)).length < fuel →
      ∃ fuel', (bytesOf es).length < fuel' ∧
        searchBack n buf fuel (bytesOf (es ++ fs)).length =
          searchBack n buf fuel' (bytesOf es).length := by
  induction fs using List.reverseRecOn with
  | nil =>
    intro gs fuel _ _ _ hfuel
    rw [append_nil] at hfuel ⊢
    exact ⟨fuel, hfuel, rfl⟩
  | append_singleton fs f ih =>
    intro gs fuel h hne hnewest hfuel
    obtain ⟨fuel, rfl⟩ : ∃ k, fuel = k + 1 := ⟨fuel - 1, by omega⟩
    have hpos := f.length_pos
    have hassoc : es ++ (fs ++ [f]) = (es ++ fs) ++ [f] := by simp
    rw [hassoc] at hfuel ⊢
    have hlength := length_bytesOf_concat (es ++ fs) f
    have h : Holds buf (es ++ fs ++ f :: gs) := by simpa using h
    have hstep := searchBack_step h (fun hgs => hnewest f (by simp [hgs])) (hne f (by simp)) fuel
    obtain ⟨fuel', hfuel', hskip⟩ := ih h (fun e he => hne e (by simp [he]))
      (fun e he => hnewest e (by simpa using he)) (show _ < fuel by omega)
    exact ⟨fuel', hfuel', hstep.trans hskip⟩

theorem logBufferGetNext_newest (h : Holds buf (es ++ [e]))
    (hseq : e.seqNumber = n) : logBufferGetNext n buf = some none := by
  obtain ⟨ptr, hbefore, _⟩ := entryBefore_spec h
  have hpos := e.length_pos
  have hlength := length_bytesOf_concat es e
  have hused := h.used
  rw [logBufferGetNext, searchBack, if_neg (by omega), hused, hbefore]
  dsimp only
  rw [if_pos ⟨hseq, rfl⟩]

theorem logBufferGetNext_empty (h : Holds buf []) : logBufferGetNext n buf = some none := by
  have hused : buf.bufferUsed = 0 := h.used_eq_zero_iff.mpr rfl
  rw [logBufferGetNext, hused, searchBack, if_pos rfl, if_neg (by omega)]

theorem logBufferGetNext_found_at (h : Holds buf (es ++ e :: fs))
    (hnewest : ∀ x, (e :: fs).getLast? = some x → x.seqNumber ≠ n)
    (hne : ∀ f ∈ fs, f.seqNumber ≠ (n + 1) % 2 ^ 32) (hseq : e.seqNumber = (n + 1) % 2 ^ 32) :
    ∃ ptr, logBufferGetNext n buf = some (some ptr) ∧ IsAt buf ptr (bytesOf es).length := by
  have hused := h.used
  have hlist : es ++ e :: fs = (es ++ [e]) ++ fs := by simp
  obtain ⟨ptr, hbefore, hat⟩ := entryBefore_spec h
  obtain ⟨fuel, hfuel, hskip⟩ : ∃ fuel, (bytesOf (es ++ [e])).length < fuel ∧
      logBufferGetNext n buf = searchBack n buf fuel (bytesOf (es ++ [e])).length := by
    rw [logBufferGetNext, hused, hlist]
    refine @searchBack_skip buf n (es ++ [e]) fs [] _ ?_ hne ?_ (Nat.lt_succ_self _)
    · rw [append_nil, ← hlist]
      exact h
    · intro x hx
      rw [append_nil] at hx
      refine hnewest x ?_
      rw [getLast?_cons, hx]
      rfl
  obtain ⟨fuel, rfl⟩ : ∃ k, fuel = k + 1 := ⟨fuel - 1, by omega⟩
  have hpos := e.length_pos
  have hlength := length_bytesOf_concat es e
  have hlast : ¬ (e.seqNumber = n ∧ (bytesOf (es ++ [e])).length = buf.bufferUsed) := by
    rintro ⟨hen, hend⟩
    exact hnewest e (by simp [h.eq_nil hend]) hen
  refine ⟨ptr, ?_, hat⟩
  rw [hskip, searchBack, if_neg (by omega), hbefore]
  dsimp only
  rw [if_neg hlast, if_pos hseq]

theorem logBufferGetNext_oldest_at (h : Holds buf (e :: es))
    (hnewest : ∀ x, (e :: es).getLast? = some x → x.seqNumber ≠ n)
    (hne : ∀ f ∈ e :: es, f.seqNumber ≠ (n + 1) % 2 ^ 32) :
    ∃ ptr, logBufferGetNext n buf = some (some ptr) ∧ IsAt buf ptr (bytesOf []).length := by
  have hused := h.used
  have hpos := e.length_pos
  have hle := h.used_le
  have hcons := h.used_cons
  rw [← e.length_bytes] at hcons
  obtain ⟨fuel, hfuel, hskip⟩ : ∃ fuel, (bytesOf []).length < fuel ∧
      logBufferGetNext n buf = searchBack n buf fuel (bytesOf []).length := by
    rw [logBufferGetNext, hused]
    refine @searchBack_skip buf n [] (e :: es) [] _ ?_ hne ?_ (Nat.lt_succ_self _)
    · simpa using h
    · intro x hx
      rw [append_nil] at hx
      exact hnewest x hx
  obtain ⟨fuel, rfl⟩ : ∃ k, fuel = k + 1 := ⟨fuel - 1, by omega⟩
  have hat : IsAt buf buf.bufferStartPtr (bytesOf []).length := by
    simpa [bytesOf] using h.isAt (by omega) (Nat.zero_le _)
  refine ⟨buf.bufferStartPtr, ?_, hat⟩
  rw [hskip, searchBack, if_pos (show (bytesOf []).length = 0 from rfl), if_pos (by omega)]

end Search

/-! ### The reader -/

/-- What happens: an operation on the buffer, or the reader asks for the next entry. -/
inductive Event
  | op (op : Op)
  | read

/-- A buffer and a reader of it: the number of the last entry that it received, and what it
received. -/
structure Reader where
  buf : LogBuffer
  last : Nat
  received : List (Nat × List UInt8)

namespace Reader

def start (memory : List UInt8) : Reader := ⟨logBufferInit memory, 0, []⟩

/-- The reader passes its number to `log_buffer_get_next` and reads what it is given. -/
def read (r : Reader) : Option Reader :=
  match logBufferGetNext r.last r.buf with
  | none => none
  | some none => some r
  | some (some readPtr) =>
    (readEntry readPtr r.buf).map fun c =>
      { r with last := c.1, received := r.received ++ [c] }

def step : Event → Reader → Option Reader
  | .op op, r => (LogBuff.step op r.buf).map fun x => { r with buf := x.1 }
  | .read, r => r.read

def run : List Event → Reader → Option Reader
  | [], r => some r
  | e :: es, r =>
    match step e r with
    | none => none
    | some r => run es r

end Reader

/-- A queue and a reader that misses nothing and repeats nothing: it has seen the first
`seen` of the entries that were pushed. -/
structure Ideal where
  fifo : Fifo
  seen : Nat
  received : List (Nat × List UInt8)

namespace Ideal

def start : Ideal := ⟨Fifo.empty, 0, []⟩

def nextEntry (i : Ideal) : Option Entry := i.fifo.pushed[max i.fifo.popped i.seen]?

def read (i : Ideal) : Ideal :=
  match i.nextEntry with
  | none => i
  | some e =>
    { i with seen := max i.fifo.popped i.seen + 1, received := i.received ++ [e.content] }

def step (bufferSize : Nat) : Event → Ideal → Ideal
  | .op op, i => { i with fifo := (Fifo.step bufferSize op i.fifo).1 }
  | .read, i => i.read

def run (bufferSize : Nat) (events : List Event) (i : Ideal) : Ideal :=
  events.foldl (fun i e => step bufferSize e i) i

/-- No push is turned away that has taken a number, and the reader is not a whole turn of
the numbers behind when it reads. -/
def Meets (bufferSize : Nat) (i : Ideal) : Event → Prop
  | .op (.push msg canPop) =>
    bufferSize < totalSize msg.pieces.flatten.length ∨ ¬ Fifo.Refuses bufferSize msg canPop i.fifo
  | .op .pop => True
  | .read => i.fifo.pushed.length < i.seen + 2 ^ 32

instance (bufferSize : Nat) (i : Ideal) (e : Event) : Decidable (Meets bufferSize i e) :=
  match e with
  | .op (.push _ _) => inferInstanceAs (Decidable (_ ∨ _))
  | .op .pop => inferInstanceAs (Decidable True)
  | .read => inferInstanceAs (Decidable (_ < _))

def Clean (bufferSize : Nat) : List Event → Ideal → Prop
  | [], _ => True
  | e :: es, i => Meets bufferSize i e ∧ Clean bufferSize es (step bufferSize e i)

instance decidableClean (bufferSize : Nat) : ∀ (events : List Event) (i : Ideal),
    Decidable (Clean bufferSize events i)
  | [], _ => inferInstanceAs (Decidable True)
  | e :: es, i =>
    let _ := decidableClean bufferSize es (step bufferSize e i)
    inferInstanceAs (Decidable (_ ∧ _))

/-- The numbers of the queue have no gap. -/
structure Numbered (i : Ideal) : Prop where
  seen_le : i.seen ≤ i.fifo.pushed.length
  seqCounter : i.fifo.seqCounter = i.fifo.pushed.length % 2 ^ 32
  seqNumber : ∀ {k : Nat} {e : Entry}, i.fifo.pushed[k]? = some e → e.seqNumber = (k + 1) % 2 ^ 32

theorem numbered_start : start.Numbered := ⟨le_rfl, rfl, fun h => by simp [start, Fifo.empty] at h⟩

theorem numbered_push {bufferSize : Nat} {i : Ideal} (h : i.Numbered) {msg : Message}
    {canPop : Bool} (hmeets : Meets bufferSize i (.op (.push msg canPop))) :
    (step bufferSize (.op (.push msg canPop)) i).Numbered := by
  rw [step, Fifo.step, Fifo.push]
  by_cases htotal : bufferSize < totalSize msg.pieces.flatten.length
  · rw [if_pos htotal]
    exact ⟨h.seen_le, h.seqCounter, h.seqNumber⟩
  have hnot : ¬ Fifo.Refuses bufferSize msg canPop i.fifo := by
    rcases hmeets with hlt | hnot
    · exact absurd hlt htotal
    · exact hnot
  rw [if_neg htotal, if_neg hnot]
  have hnext : i.fifo.nextSeq = (i.fifo.pushed.length + 1) % 2 ^ 32 := by
    rw [Fifo.nextSeq, h.seqCounter, Nat.mod_add_mod]
  refine ⟨?_, ?_, ?_⟩
  · show i.seen ≤ (i.fifo.pushed ++ [i.fifo.entryOf msg]).length
    rw [length_append]
    exact h.seen_le.trans (Nat.le_add_right _ _)
  · show i.fifo.nextSeq = (i.fifo.pushed ++ [i.fifo.entryOf msg]).length % 2 ^ 32
    rw [hnext, length_append, length_singleton]
  intro k e hk
  have hk : (i.fifo.pushed ++ [i.fifo.entryOf msg])[k]? = some e := hk
  rw [getElem?_append] at hk
  split at hk
  · exact h.seqNumber hk
  rw [getElem?_singleton] at hk
  split at hk
  · cases hk
    show i.fifo.nextSeq = _
    rw [hnext]
    congr 1
    omega
  · cases hk

theorem numbered_step {bufferSize : Nat} {i : Ideal} (h : i.Numbered) {e : Event}
    (hmeets : Meets bufferSize i e) : (step bufferSize e i).Numbered := by
  match e with
  | .op (.push msg canPop) => exact numbered_push h hmeets
  | .op .pop => exact ⟨h.seen_le, h.seqCounter, h.seqNumber⟩
  | .read =>
    rw [step, read]
    cases hnext : i.nextEntry with
    | none => exact h
    | some e =>
      refine ⟨?_, h.seqCounter, h.seqNumber⟩
      show max i.fifo.popped i.seen + 1 ≤ i.fifo.pushed.length
      have hlt := (List.getElem?_eq_some_iff.mp hnext).1
      omega

end Ideal

/-- The reader is where the ideal reader is. -/
structure Follows (r : Reader) (i : Ideal) : Prop where
  refines : Refines r.buf i.fifo
  last : r.last = i.seen % 2 ^ 32
  received : r.received = i.received

theorem follows_start (memory : List UInt8) : Follows (Reader.start memory) Ideal.start :=
  ⟨refines_init memory, rfl, rfl⟩

namespace Follows

variable {r : Reader} {i : Ideal}

theorem seqNumber_of_mem_drop (hnum : i.Numbered) {m : Nat} {e : Entry}
    (he : e ∈ i.fifo.pushed.drop m) :
    ∃ k, m ≤ k ∧ k < i.fifo.pushed.length ∧ e.seqNumber = (k + 1) % 2 ^ 32 := by
  obtain ⟨j, hj⟩ := List.mem_iff_getElem?.mp he
  rw [List.getElem?_drop] at hj
  exact ⟨m + j, Nat.le_add_right _ _, (List.getElem?_eq_some_iff.mp hj).1, hnum.seqNumber hj⟩

theorem newest_ne (hnum : i.Numbered) (hlag : i.fifo.pushed.length < i.seen + 2 ^ 32)
    (hseen : i.seen < i.fifo.pushed.length) {m : Nat} {e : Entry}
    (he : (i.fifo.pushed.drop m).getLast? = some e) : e.seqNumber ≠ i.seen % 2 ^ 32 := by
  have hm : m < i.fifo.pushed.length := by
    by_contra hm
    rw [drop_of_length_le (by omega)] at he
    cases he
  rw [getLast?_eq_getElem?, length_drop, getElem?_drop] at he
  have hseq := hnum.seqNumber he
  rw [hseq]
  omega

theorem next_ne (hnum : i.Numbered) (hlag : i.fifo.pushed.length < i.seen + 2 ^ 32) {m : Nat}
    (hm : i.seen < m) {e : Entry} (he : e ∈ i.fifo.pushed.drop m) :
    e.seqNumber ≠ (i.seen % 2 ^ 32 + 1) % 2 ^ 32 := by
  obtain ⟨k, hk, hlt, hseq⟩ := seqNumber_of_mem_drop hnum he
  rw [hseq]
  omega

/-- **The search for a reader**, by where the reader is: at the end, at an entry that is still
there, or at one that was popped. -/
theorem search (hholds : Holds r.buf i.fifo.entries) (hlast : r.last = i.seen % 2 ^ 32)
    (hnum : i.Numbered) (hlag : i.fifo.pushed.length < i.seen + 2 ^ 32) :
    (i.nextEntry = none ∧ logBufferGetNext r.last r.buf = some none) ∨
    ∃ e es fs ptr, i.nextEntry = some e ∧ i.fifo.entries = es ++ e :: fs ∧
      es.length = max i.fifo.popped i.seen - i.fifo.popped ∧
      logBufferGetNext r.last r.buf = some (some ptr) ∧ IsAt r.buf ptr (bytesOf es).length := by
  have hpopped := i.fifo.popped_le
  have hseen := hnum.seen_le
  rw [hlast]
  by_cases hempty : i.fifo.popped = i.fifo.pushed.length
  · have hnil : i.fifo.entries = [] := by
      rw [Fifo.entries, hempty, drop_length]
    rw [hnil] at hholds
    refine Or.inl ⟨?_, logBufferGetNext_empty hholds⟩
    rw [Ideal.nextEntry, getElem?_eq_none (by omega)]
  · have hpopped : i.fifo.popped < i.fifo.pushed.length := by omega
    by_cases hend : i.seen = i.fifo.pushed.length
    · -- everything was seen, and the newest entry is the last one
      refine Or.inl ⟨by rw [Ideal.nextEntry, getElem?_eq_none (by omega)], ?_⟩
      have hne : i.fifo.entries ≠ [] := by
        rw [Fifo.entries, Ne, drop_eq_nil_iff]
        omega
      obtain ⟨es, e, hes⟩ := (eq_nil_or_concat' i.fifo.entries).resolve_left hne
      have hlast : i.fifo.entries.getLast? = some e := by rw [hes]; simp
      rw [Fifo.entries, getLast?_eq_getElem?, length_drop, getElem?_drop] at hlast
      have hseq := hnum.seqNumber hlast
      rw [hes] at hholds
      refine logBufferGetNext_newest hholds ?_
      rw [hseq, hend]
      congr 1
      omega
    · have hlt : i.seen < i.fifo.pushed.length := by omega
      refine Or.inr ?_
      by_cases hthere : i.fifo.popped ≤ i.seen
      · have hdrop : i.fifo.pushed.drop i.seen =
            i.fifo.pushed[i.seen] :: i.fifo.pushed.drop (i.seen + 1) :=
          drop_eq_getElem_cons hlt
        have hsplit : i.fifo.entries =
            i.fifo.entries.take (i.seen - i.fifo.popped) ++
              i.fifo.pushed[i.seen] :: i.fifo.pushed.drop (i.seen + 1) := by
          rw [← hdrop]
          conv_lhs => rw [← take_append_drop (i.seen - i.fifo.popped) i.fifo.entries]
          rw [Fifo.entries, drop_drop]
          congr 2
          omega
        have hget : i.fifo.pushed[i.seen]? = some i.fifo.pushed[i.seen] :=
          getElem?_eq_getElem hlt
        have hmax : max i.fifo.popped i.seen = i.seen := max_eq_right hthere
        have hseq := hnum.seqNumber hget
        rw [hsplit] at hholds
        obtain ⟨ptr, hfound, hat⟩ := logBufferGetNext_found_at hholds
          (fun x hx => newest_ne hnum hlag hlt (by rw [hdrop]; exact hx))
          (fun f hf => next_ne hnum hlag (Nat.lt_succ_self _) hf) (by rw [hseq, Nat.mod_add_mod])
        refine ⟨_, _, _, ptr, by rw [Ideal.nextEntry, hmax, hget], hsplit, ?_, hfound, hat⟩
        rw [hmax, length_take_of_le]
        rw [Fifo.length_entries]
        omega
      · have hdrop : i.fifo.entries =
            [] ++ i.fifo.pushed[i.fifo.popped] :: i.fifo.pushed.drop (i.fifo.popped + 1) :=
          drop_eq_getElem_cons hpopped
        have hget : i.fifo.pushed[i.fifo.popped]? = some i.fifo.pushed[i.fifo.popped] :=
          getElem?_eq_getElem hpopped
        have hmax : max i.fifo.popped i.seen = i.fifo.popped := max_eq_left (by omega)
        rw [hdrop] at hholds
        obtain ⟨ptr, hfound, hat⟩ := logBufferGetNext_oldest_at hholds
          (fun x hx => newest_ne hnum hlag hlt (hdrop ▸ hx : i.fifo.entries.getLast? = some x))
          (fun f hf => next_ne hnum hlag (by omega) (hdrop ▸ hf : f ∈ i.fifo.entries))
        refine ⟨_, [], _, ptr, by rw [Ideal.nextEntry, hmax, hget], hdrop, ?_, hfound, hat⟩
        rw [hmax, Nat.sub_self]
        rfl

theorem seqNumber_next (hnum : i.Numbered) {e : Entry} (hnext : i.nextEntry = some e) :
    e.seqNumber = (max i.fifo.popped i.seen + 1) % 2 ^ 32 :=
  hnum.seqNumber hnext

theorem read_some (h : Follows r i) {e : Entry} (hnext : i.nextEntry = some e)
    (hseq : e.seqNumber = (max i.fifo.popped i.seen + 1) % 2 ^ 32)
    (hget : ∃ ptr, logBufferGetNext r.last r.buf = some (some ptr) ∧
      readEntry ptr r.buf = some e.content) :
    ∃ r', r.read = some r' ∧ r'.buf = r.buf ∧ Follows r' i.read := by
  obtain ⟨ptr, hget, hread⟩ := hget
  refine ⟨{ r with last := e.seqNumber, received := r.received ++ [e.content] }, ?_, rfl, ?_⟩
  · rw [Reader.read, hget]
    dsimp only
    rw [hread]
    rfl
  · rw [Ideal.read, hnext]
    refine ⟨h.refines, hseq, ?_⟩
    show r.received ++ [e.content] = i.received ++ [e.content]
    rw [h.received]

theorem read_none (h : Follows r i) (hnext : i.nextEntry = none)
    (hget : logBufferGetNext r.last r.buf = some none) :
    ∃ r', r.read = some r' ∧ r'.buf = r.buf ∧ Follows r' i.read := by
  refine ⟨r, ?_, rfl, ?_⟩
  · rw [Reader.read, hget]
  · rw [Ideal.read, hnext]
    exact h

theorem read_follows (h : Follows r i) (hnum : i.Numbered)
    (hlag : i.fifo.pushed.length < i.seen + 2 ^ 32) :
    ∃ r', r.read = some r' ∧ r'.buf = r.buf ∧ Follows r' i.read := by
  have hholds := h.refines.holds
  rcases search hholds h.last hnum hlag with
    ⟨hnext, hget⟩ | ⟨e, es, fs, ptr, hnext, hentries, -, hget, hat⟩
  · exact h.read_none hnext hget
  · rw [hentries] at hholds
    obtain ⟨rest, hview⟩ := hholds.view_eq
    exact h.read_some hnext (seqNumber_next hnum hnext)
      ⟨ptr, hget, readEntry_spec hholds.length_data hview hat⟩

theorem step_follows (h : Follows r i) (hnum : i.Numbered) {e : Event}
    (hmeets : Ideal.Meets r.buf.bufferSize i e) :
    ∃ r', Reader.step e r = some r' ∧ r'.buf.bufferSize = r.buf.bufferSize ∧
      Follows r' (Ideal.step r.buf.bufferSize e i) := by
  cases e with
  | op op =>
    obtain ⟨buf, hstep, hrefines, hsize⟩ := step_refines h.refines op
    refine ⟨{ r with buf := buf }, ?_, hsize, ⟨hrefines, h.last, h.received⟩⟩
    rw [Reader.step, hstep]
    rfl
  | read =>
    obtain ⟨r', hread, hbuf, hfollows⟩ := h.read_follows hnum hmeets
    exact ⟨r', hread, by rw [hbuf], hfollows⟩

theorem run_follows {events : List Event} : ∀ {r : Reader} {i : Ideal}, Follows r i →
    i.Numbered → Ideal.Clean r.buf.bufferSize events i →
      ∃ r', Reader.run events r = some r' ∧
        Follows r' (Ideal.run r.buf.bufferSize events i) := by
  induction events with
  | nil => intro r i h _ _; exact ⟨r, rfl, h⟩
  | cons e es ih =>
    intro r i h hnum hclean
    obtain ⟨hmeets, hclean⟩ := hclean
    obtain ⟨r1, hstep, hsize, hfollows⟩ := h.step_follows hnum hmeets
    obtain ⟨r', hrun, hfollows'⟩ :=
      ih hfollows (Ideal.numbered_step hnum hmeets) (by rw [hsize]; exact hclean)
    rw [hsize] at hfollows'
    refine ⟨r', ?_, hfollows'⟩
    rw [Reader.run, hstep]
    exact hrun

end Follows

/-- **A reader misses nothing and repeats nothing**, in a run in which no push is turned
away that has taken a number and in which it is never a whole turn of the numbers behind. -/
theorem reader_run (memory : List UInt8) (events : List Event)
    (hclean : Ideal.Clean memory.length events Ideal.start) :
    ∃ r, Reader.run events (Reader.start memory) = some r ∧
      r.received = (Ideal.run memory.length events Ideal.start).received := by
  obtain ⟨r, hrun, hfollows⟩ :=
    (follows_start memory).run_follows Ideal.numbered_start hclean
  exact ⟨r, hrun, hfollows.received⟩

def fortyBytes : List UInt8 := List.replicate 40 0

def shortMessage : Message := ⟨[[1]], by decide⟩

def longMessage : Message := ⟨[[2, 2, 2, 2], [2, 2, 2, 2, 2, 2]], by decide⟩

theorem reader_run_popped :
    ∃ r, Reader.run [.op (.push shortMessage false), .op (.push longMessage true), .read,
        .op (.push longMessage true), .read, .read] (Reader.start fortyBytes) = some r ∧
      r.received = (Ideal.run 40 [.op (.push shortMessage false), .op (.push longMessage true),
        .read, .op (.push longMessage true), .read, .read] Ideal.start).received :=
  reader_run fortyBytes _ (by decide)

/-- After a push was turned away the reader gets the oldest entry for a second time: the
new one has not the number that it asks for. -/
theorem reader_repeats :
    ¬ ∃ r, Reader.run [.op (.push shortMessage false), .op (.push shortMessage false),
        .op (.push longMessage false), .read, .read, .op (.push shortMessage false), .read]
        (Reader.start fortyBytes) = some r ∧
      r.received = (Ideal.run 40 [.op (.push shortMessage false), .op (.push shortMessage false),
        .op (.push longMessage false), .read, .read, .op (.push shortMessage false), .read]
        Ideal.start).received := by
  have hreal : (Reader.run [.op (.push shortMessage false), .op (.push shortMessage false),
      .op (.push longMessage false), .read, .read, .op (.push shortMessage false), .read]
      (Reader.start fortyBytes)).map Reader.received = some [(1, [1]), (2, [1]), (1, [1])] := by
    decide
  rintro ⟨r, hrun, hreceived⟩
  rw [hrun, Option.map_some, hreceived] at hreal
  revert hreal
  decide

end Sandboxie.LogBuff
