import Sandboxie.Drv.ApiLog

/-!
# Messages arrive

`Follows` ties the log to the ideal reader.  `getLoop_spec` is the loop of `Api_GetMessage`:
it passes over the entries of other sessions and gives the next message with all of its
bytes, when they fit and are in one piece.  `messages_arrive` is a whole run.
-/

namespace Sandboxie.ApiLog

open LogBuff List Option

/-! ### Adding -/

namespace AddArgs

theorem length_charBytes (t : List UInt16) : (t.flatMap charBytes).length = t.length * 2 := by
  induction t with
  | nil => rfl
  | cons c t ih =>
    rw [flatMap_cons, length_append, ih, length_cons, Nat.succ_mul, Nat.add_comm]
    rfl

theorem length_text (args : AddArgs) : args.text.length = args.dataLen := by
  unfold text textPieces dataLen
  induction args.texts with
  | nil => rfl
  | cons t ts ih =>
    rw [flatMap_cons, flatten_append, length_append, ih, map_cons,
      sum_cons, flatten_cons, flatten_cons, flatten_nil, append_nil,
      length_append, length_charBytes, Nat.succ_mul]
    rfl

theorem flatten_pieces (args : AddArgs) : args.pieces.flatten =
    Bytes.ofU32 args.sessionId.toNat ++ Bytes.ofU32 args.processId.toNat ++
      Bytes.ofU32 args.errorCode.toNat ++ args.text := by
  simp only [pieces, text, flatten_append, flatten_cons, flatten_nil,
    append_nil, append_assoc]

theorem length_pieces (args : AddArgs) : args.pieces.flatten.length = 4 + 4 + 4 + args.dataLen := by
  rw [flatten_pieces, length_append, length_text]
  rfl

end AddArgs

variable {buf : LogBuffer}

theorem apiAddMessage_eq {args : AddArgs} (h : args.pieces.flatten.length < 2 ^ 32) :
    apiAddMessage args buf = (push ⟨args.pieces, h⟩ true buf).map Prod.fst := by
  have hsize : args.entrySize = args.pieces.flatten.length := by
    rw [args.length_pieces] at h ⊢
    exact Nat.mod_eq_of_lt h
  unfold apiAddMessage push
  rw [hsize]
  cases logBufferPushEntry args.pieces.flatten.length buf true with
  | none => rfl
  | some r =>
    obtain ⟨buf, _ | writePtr⟩ := r
    · rfl
    · show pushPieces args.pieces writePtr buf =
        ((pushPieces args.pieces writePtr buf).map fun buf => (buf, true)).map Prod.fst
      rw [Option.map_map]
      exact Option.map_id'.symm

/-! ### Reading an entry -/

theorem memcpyFrom_eq : ∀ {n : Nat} {ptr : Int}, 0 ≤ ptr →
    ptr + n ≤ buf.bufferSize →
      memcpyFrom buf n ptr = (logBufferGetBytes n ptr buf).map Prod.fst := by
  intro n
  induction n with
  | zero => exact fun _ _ => rfl
  | succ n ih =>
    intro ptr hlow hhigh
    have hat : logBufferByteAt ptr buf = (ptr, ptr + 1) := by
      unfold logBufferByteAt
      rw [if_neg (by omega), if_neg (by omega)]
    rw [memcpyFrom, logBufferGetBytes, hat]
    simp only
    cases load buf ptr with
    | none => rfl
    | some c =>
      simp only
      rw [ih (by omega) (by omega), Option.map_map, Option.map_map]
      rfl

theorem ptr_of_inside {ptr : Int} {i : Nat} (hat : IsAt buf ptr (i + 1))
    (hin : Inside buf ptr) : ptr = ((buf.bufferStartPtr + i) % buf.bufferSize : Nat) + 1 := by
  obtain ⟨hlow, hhigh⟩ := hin
  have hmod := hat.mod
  have hpred : (ptr - 1) % buf.bufferSize = ptr - 1 := Int.emod_eq_of_lt (by omega) (by omega)
  have hcast : ((buf.bufferStartPtr + (i + 1) : Nat) : Int) - 1 =
      (buf.bufferStartPtr + i : Nat) := by omega
  have hcongr : (ptr - 1) % buf.bufferSize =
      ((buf.bufferStartPtr + i : Nat) : Int) % buf.bufferSize := by
    rw [← hcast]
    exact (Int.emod_sub_cancel_right 1).mpr hmod
  rw [Int.natCast_emod, ← hcongr]
  omega

theorem getU32_spec (hlen : buf.bufferData.length = buf.bufferSize) {n : Nat}
    {a b : List UInt8} {ptr : Int} (hview : view buf = a ++ Bytes.ofU32 n ++ b)
    (hat : IsAt buf ptr a.length) :
    ∃ ptr', logBufferGetBytes 4 ptr buf = some (Bytes.ofU32 n, ptr') ∧
      IsAt buf ptr' (a ++ Bytes.ofU32 n).length ∧ Inside buf ptr' := by
  obtain ⟨ptr', hget, hat', hin⟩ := logBufferGetBytes_spec hlen hview hat
  refine ⟨ptr', hget, ?_, hin (by simp [Bytes.ofU32])⟩
  rw [length_append]
  exact hat'

structure IsMessage (e : Entry) (message : AddArgs) : Prop where
  data : e.data = message.pieces.flatten

/-- What a message looks like to a caller, who is past it in any case. -/
def answerOf (args : GetArgs) (seqNumber : Nat) (message : AddArgs) : Answer :=
  let answer : Answer :=
    { status := .success
      msgNum := seqNumber
      msgid := some message.errorCode.toNat
      processId := if args.processId then some message.processId.toNat else none }
  if message.text.length ≤ args.maximumLength then { answer with text := some message.text }
  else { answer with status := .bufferTooSmall }

theorem getEntry_spec (hlen : buf.bufferData.length = buf.bufferSize)
    {message : AddArgs} (hlength : message.pieces.flatten.length < 2 ^ 32) {a b : List UInt8}
    {ptr : Int} (hview : view buf = a ++ Bytes.ofU32 message.processId.toNat ++
      (Bytes.ofU32 message.errorCode.toNat ++ message.text ++ b))
    (hat : IsAt buf ptr a.length) {args : GetArgs} {seqNumber : Nat}
    (hpiece : message.text.length ≤ args.maximumLength → message.text.length = 0 ∨
      (buf.bufferStartPtr + (a.length + 7)) % buf.bufferSize + 1 + message.text.length ≤
        buf.bufferSize) :
    getEntry args buf message.pieces.flatten.length seqNumber ptr =
      some (answerOf args seqNumber message) := by
  obtain ⟨ptr1, hget1, hat1, -⟩ := getU32_spec hlen hview hat
  have hview1 : view buf = (a ++ Bytes.ofU32 message.processId.toNat) ++
      Bytes.ofU32 message.errorCode.toNat ++ (message.text ++ b) := by
    rw [hview]
    simp only [append_assoc]
  obtain ⟨ptr2, hget2, hat2, hin2⟩ := getU32_spec hlen hview1 hat1
  have hview2 : view buf = (a ++ Bytes.ofU32 message.processId.toNat ++
      Bytes.ofU32 message.errorCode.toNat) ++ message.text ++ b := by
    rw [hview1]
    simp only [append_assoc]
  obtain ⟨ptr3, hget3, -, -⟩ := logBufferGetBytes_spec hlen hview2 hat2
  have hprocess := Bytes.u32_ofU32 message.processId.toNat_lt
  have hmsgid := Bytes.u32_ofU32 message.errorCode.toNat_lt
  have hsize : (message.pieces.flatten.length + (2 ^ 32 - 12)) % 2 ^ 32 = message.text.length := by
    have htext := message.length_text
    have hpieces := message.length_pieces
    omega
  unfold getEntry answerOf
  rw [hget1]
  simp only [hget2, hprocess, hmsgid, hsize]
  by_cases hfits : message.text.length ≤ args.maximumLength
  · have hcopy : memcpyFrom buf message.text.length ptr2 = some message.text := by
      rcases hpiece hfits with hnil | hpiece
      · rw [eq_nil_of_length_eq_zero hnil]
        rfl
      · have hoffset : (a ++ Bytes.ofU32 message.processId.toNat ++
            Bytes.ofU32 message.errorCode.toNat).length = a.length + 7 + 1 := by
          simp only [length_append, Bytes.length_ofU32]
        rw [hoffset] at hat2
        have hptr := ptr_of_inside hat2 hin2
        rw [memcpyFrom_eq (by omega) (by rw [hptr]; omega), hget3]
        rfl
    rw [if_pos hfits, if_pos hfits, hcopy]
    rfl
  · rw [if_neg hfits, if_neg hfits]

/-! ### The loop -/

/-- The messages of the entries that were pushed. -/
def AreMessages (fifo : Fifo) (messages : List AddArgs) : Prop :=
  List.Forall₂ IsMessage fifo.pushed messages

theorem AreMessages.drop_eq {fifo : Fifo} {messages : List AddArgs} (h : AreMessages fifo messages)
    {n : Nat} {e : Entry} (hget : fifo.pushed[n]? = some e) :
    ∃ message, messages.drop n = message :: messages.drop (n + 1) ∧ IsMessage e message := by
  obtain ⟨hlt, rfl⟩ := List.getElem?_eq_some_iff.mp hget
  have hlt' : n < messages.length := h.length_eq ▸ hlt
  exact ⟨messages[n], List.drop_eq_getElem_cons hlt', h.get hlt hlt'⟩

def told (args : GetArgs) (place : Nat) : Option (Nat × AddArgs) → Answer
  | none => { status := .noMoreEntries, msgNum := args.msgNum }
  | some (skipped, message) => answerOf args ((place + skipped + 1) % 2 ^ 32) message

theorem getLoop_spec {fifo : Fifo} {messages : List AddArgs} {args : GetArgs}
    (hholds : Holds buf fifo.entries) (hmessages : AreMessages fifo messages) :
    ∀ {fuel p : Nat}, (LogBuff.Ideal.mk fifo p []).Numbered → fifo.pushed.length < p + 2 ^ 32 →
      fifo.pushed.length - max fifo.popped p < fuel →
      (∀ r ∈ Ideal.firstWanted args.sessionId (messages.drop (max fifo.popped p)),
        r.2.text.length ≤ args.maximumLength →
          InOnePiece buf (usedBy (fifo.entries.take (max fifo.popped p + r.1 - fifo.popped)))
            r.2.text.length) →
      getLoop args buf fuel (p % 2 ^ 32) = some (told args (max fifo.popped p)
        (Ideal.firstWanted args.sessionId (messages.drop (max fifo.popped p)))) := by
  intro fuel
  induction fuel with
  | zero => exact fun _ _ hfuel => absurd hfuel (Nat.not_lt_zero _)
  | succ fuel ih =>
    intro p hnum hlag hfuel hwanted
    rw [getLoop]
    rcases @Follows.search ⟨buf, p % 2 ^ 32, []⟩ ⟨fifo, p, []⟩ hholds rfl hnum hlag with
      ⟨hnext, hget⟩ | ⟨e, es, fs, ptr, hnext, hentries, hlength, hget, hat⟩
    · have hend : fifo.pushed.length ≤ max fifo.popped p := List.getElem?_eq_none_iff.mp hnext
      have hdrop : messages.drop (max fifo.popped p) = [] :=
        List.drop_of_length_le (hmessages.length_eq ▸ hend)
      have hget : logBufferGetNext (p % 2 ^ 32) buf = some none := hget
      rw [hget, hdrop]
      rfl
    · have hget : logBufferGetNext (p % 2 ^ 32) buf = some (some ptr) := hget
      have hentries : fifo.entries = es ++ e :: fs := hentries
      have hlength : es.length = max fifo.popped p - fifo.popped := hlength
      have hat : IsAt buf ptr (bytesOf es).length := hat
      have hplace : fifo.pushed[max fifo.popped p]? = some e := hnext
      have hlt := (List.getElem?_eq_some_iff.mp hplace).1
      have hseq : e.seqNumber = (max fifo.popped p + 1) % 2 ^ 32 := hnum.seqNumber hplace
      obtain ⟨message, hdrop, hmessage⟩ := hmessages.drop_eq hplace
      have htake : fifo.entries.take (max fifo.popped p - fifo.popped) = es := by
        rw [hentries, ← hlength, List.take_left']
        rfl
      have hbufLen := hholds.length_data
      rw [hentries] at hholds
      obtain ⟨rest, hview⟩ := hholds.view_eq
      -- the tags in front of the data, and the session
      have hview1 : view buf = bytesOf es ++ Bytes.ofU32 e.data.length ++
          (Bytes.ofU32 e.seqNumber ++ e.data ++ Bytes.ofU32 e.data.length ++ rest) := by
        rw [hview, Entry.bytes]
        simp only [List.append_assoc]
      obtain ⟨ptr1, hget1, hat1, -⟩ := getU32_spec hbufLen hview1 hat
      have hview2 : view buf = (bytesOf es ++ Bytes.ofU32 e.data.length) ++
          Bytes.ofU32 e.seqNumber ++ (e.data ++ Bytes.ofU32 e.data.length ++ rest) := by
        rw [hview1]
        simp only [List.append_assoc]
      obtain ⟨ptr2, hget2, hat2, -⟩ := getU32_spec hbufLen hview2 hat1
      have hview3 : view buf = (bytesOf es ++ Bytes.ofU32 e.data.length ++
          Bytes.ofU32 e.seqNumber) ++ Bytes.ofU32 message.sessionId.toNat ++
          (Bytes.ofU32 message.processId.toNat ++ Bytes.ofU32 message.errorCode.toNat ++
            message.text ++ (Bytes.ofU32 e.data.length ++ rest)) := by
        rw [hview2, hmessage.data, message.flatten_pieces]
        simp only [List.append_assoc]
      obtain ⟨ptr3, hget3, hat3, -⟩ := getU32_spec hbufLen hview3 hat2
      have hgetSize : logBufferGetSize ptr buf = some (e.data.length, ptr1) := by
        rw [logBufferGetSize, hget1, map_some, Bytes.u32_ofU32 e.length_lt]
      have hgetSeq : logBufferGetSeqNum ptr1 buf = some (e.seqNumber, ptr2) := by
        rw [logBufferGetSeqNum, hget2, map_some, Bytes.u32_ofU32 e.seqNumber_lt]
      rw [hget]
      simp only [hgetSize, hgetSeq, hget3, Bytes.u32_ofU32 message.sessionId.toNat_lt]
      rw [hdrop, Ideal.firstWanted]
      rw [hdrop, Ideal.firstWanted] at hwanted
      by_cases hwants : wants args.sessionId.toNat message.sessionId.toNat = true
      · rw [if_pos hwants] at hwanted ⊢
        rw [if_neg (by rw [hwants]; decide)]
        have hpiece := hwanted _ rfl
        rw [Nat.add_zero, htake] at hpiece
        have hview4 : view buf = (bytesOf es ++ Bytes.ofU32 e.data.length ++
            Bytes.ofU32 e.seqNumber ++ Bytes.ofU32 message.sessionId.toNat) ++
            Bytes.ofU32 message.processId.toNat ++ (Bytes.ofU32 message.errorCode.toNat ++
              message.text ++ (Bytes.ofU32 e.data.length ++ rest)) := by
          rw [hview3]
          simp only [List.append_assoc]
        have hmessageLen : message.pieces.flatten.length < 2 ^ 32 := hmessage.data ▸ e.length_lt
        have hoffset : (bytesOf es ++ Bytes.ofU32 e.data.length ++ Bytes.ofU32 e.seqNumber ++
            Bytes.ofU32 message.sessionId.toNat).length + 7 = usedBy es + 19 := by
          simp only [List.length_append, Bytes.length_ofU32, length_bytesOf]
        rw [hmessage.data, getEntry_spec hbufLen hmessageLen hview4 hat3 (by
          rw [hoffset, ← Nat.add_assoc]
          exact hpiece), hseq]
        rfl
      · rw [if_neg hwants] at hwanted ⊢
        rw [if_pos (by simpa using hwants), hseq]
        have hmax : max fifo.popped (max fifo.popped p + 1) = max fifo.popped p + 1 :=
          max_eq_right (by omega)
        have hnum' : (LogBuff.Ideal.mk fifo (max fifo.popped p + 1) []).Numbered :=
          ⟨hlt, hnum.seqCounter, hnum.seqNumber⟩
        have hrest := ih hnum' (by omega) (by rw [hmax]; omega) (by
          rw [hmax]
          intro r hr
          have hfacts := hwanted (r.1 + 1, r.2) (by rw [mem_def.mp hr]; rfl)
          rw [show max fifo.popped p + 1 + r.1 = max fifo.popped p + (r.1 + 1) by omega]
          exact hfacts)
        rw [hrest, hmax]
        cases Ideal.firstWanted args.sessionId (messages.drop (max fifo.popped p + 1)) with
        | none => rfl
        | some r =>
          obtain ⟨k, m⟩ := r
          have hplaces : max fifo.popped p + 1 + k + 1 = max fifo.popped p + (k + 1) + 1 := by omega
          show some (told args (max fifo.popped p + 1) (some (k, m))) =
            some (told args (max fifo.popped p) (some (k + 1, m)))
          simp only [told, hplaces]

/-! ### Runs -/

theorem length_le_bytesOf (es : List Entry) : es.length ≤ (bytesOf es).length := by
  induction es with
  | nil => exact Nat.zero_le _
  | cons e es ih =>
    have hpos := e.length_pos
    rw [bytesOf_cons, length_append, length_cons]
    omega

/-- The log holds the messages of the ideal reader's queue. -/
structure Stores (buf : LogBuffer) (i : Ideal) : Prop where
  refines : Refines buf i.fifo
  messages : AreMessages i.fifo i.messages
  seqCounter : i.fifo.seqCounter = i.fifo.pushed.length % 2 ^ 32
  seqNumber : ∀ {k : Nat} {e : Entry}, i.fifo.pushed[k]? = some e → e.seqNumber = (k + 1) % 2 ^ 32

theorem stores_start (memory : List UInt8) : Stores (logBufferInit memory) Ideal.start :=
  ⟨refines_init memory, .nil, rfl, fun h => by simp [Ideal.start, Fifo.empty] at h⟩

section Steps

variable {client : Client} {log : Log} {i : Ideal}

theorem numbered (h : Stores log.buf i) {p : Nat} (hp : p ≤ i.messages.length) :
    (LogBuff.Ideal.mk i.fifo p []).Numbered :=
  ⟨h.messages.length_eq ▸ hp, h.seqCounter, h.seqNumber⟩

theorem add_spec (h : Stores log.buf i) {args : AddArgs}
    (hsize : 4 + 4 + 4 + args.dataLen < 2 ^ 32) :
    ∃ buf, log.step client (.add args) = some { log with buf := buf } ∧
      buf.bufferSize = log.buf.bufferSize ∧
      Stores buf (i.step client log.buf.bufferSize (.add args)) ∧
      (i.step client log.buf.bufferSize (.add args)).seen = i.seen ∧
      (i.step client log.buf.bufferSize (.add args)).answers = i.answers ∧
      i.messages.length ≤ (i.step client log.buf.bufferSize (.add args)).messages.length := by
  have hlength : args.pieces.flatten.length < 2 ^ 32 := args.length_pieces ▸ hsize
  let message : Message := ⟨args.pieces, hlength⟩
  obtain ⟨buf, hpush, hrefines, hbufferSize⟩ := push_refines h.refines message true
  have hstep : i.step client log.buf.bufferSize (.add args) =
      i.add log.buf.bufferSize args hlength := dif_pos hlength
  have hnumbered : (LogBuff.Ideal.step log.buf.bufferSize (.op (.push message true))
      ⟨i.fifo, 0, []⟩).Numbered :=
    LogBuff.Ideal.numbered_push (numbered h (Nat.zero_le _))
      (Or.inr fun hrefuses => Bool.noConfusion hrefuses.1)
  refine ⟨buf, ?_, hbufferSize, ?_, ?_⟩
  · show (apiAddMessage args log.buf).map _ = _
    rw [apiAddMessage_eq hlength, hpush]
    rfl
  · rw [hstep]
    refine ⟨hrefines, ?_, hnumbered.seqCounter, hnumbered.seqNumber⟩
    show AreMessages (i.fifo.push log.buf.bufferSize message true).1
      (if (i.fifo.push log.buf.bufferSize message true).2 then i.messages ++ [args] else i.messages)
    unfold Fifo.push
    by_cases htotal : log.buf.bufferSize < totalSize message.pieces.flatten.length
    · rw [if_pos htotal]
      exact h.messages
    · rw [if_neg htotal, if_neg fun hrefuses => Bool.noConfusion hrefuses.1]
      exact rel_append h.messages (.cons ⟨rfl⟩ .nil)
  · rw [hstep]
    refine ⟨rfl, rfl, ?_⟩
    show i.messages.length ≤
      (if (i.fifo.push log.buf.bufferSize message true).2 then i.messages ++ [args]
        else i.messages).length
    split_ifs
    · rw [length_append]
      exact Nat.le_add_right _ _
    · exact le_rfl

theorem get_spec (h : Stores log.buf i) {p : Nat} (hp : p ≤ i.messages.length)
    (hmsgNum : log.msgNum = p % 2 ^ 32) (hlag : i.messages.length < p + 2 ^ 32)
    {maximumLength : Nat}
    (hpiece : ∀ r ∈ Ideal.firstWanted client.sessionId (i.messages.drop (max i.fifo.popped p)),
      r.2.text.length ≤ maximumLength →
        InOnePiece log.buf (usedBy
          (i.fifo.entries.take (max i.fifo.popped p + r.1 - i.fifo.popped)))
          r.2.text.length) :
    let answer := told (client.args log.msgNum maximumLength) (max i.fifo.popped p)
      (Ideal.firstWanted client.sessionId (i.messages.drop (max i.fifo.popped p)))
    log.step client (.get maximumLength) =
      some { log with msgNum := answer.msgNum, answers := log.answers ++ [answer] } := by
  have hrefused : client.caller.refused (client.args log.msgNum maximumLength) = none := by
    obtain ⟨hsandboxed, hsession⟩ := client.allowed
    unfold Caller.refused
    rw [if_neg (by rw [hsandboxed]; decide), if_neg, if_neg fun hmissing =>
      Bool.noConfusion hmissing]
    rintro ⟨hservice, hother⟩
    rcases hsession with hyes | heq
    · rw [hyes] at hservice
      exact Bool.noConfusion hservice
    · exact hother heq
  have hlength := h.messages.length_eq
  have hfuel : i.fifo.pushed.length - max i.fifo.popped p < log.buf.bufferUsed + 1 := by
    have hle := length_le_bytesOf i.fifo.entries
    rw [← h.refines.holds.used, Fifo.length_entries] at hle
    omega
  have hloop := @getLoop_spec log.buf i.fifo i.messages (client.args log.msgNum maximumLength)
    h.refines.holds h.messages _ p (numbered h hp) (by omega) hfuel hpiece
  rw [← hmsgNum] at hloop
  intro answer
  show (apiGetMessage client.caller _ log.buf).map _ = _
  unfold apiGetMessage
  rw [hrefused]
  simp only
  rw [show (client.args log.msgNum maximumLength).msgNum = log.msgNum from rfl, hloop]
  rfl

end Steps

/-- The log and its reader are where the ideal reader is. -/
structure Follows (log : Log) (i : Ideal) : Prop where
  stores : Stores log.buf i
  seen_le : i.seen ≤ i.messages.length
  msgNum : log.msgNum = i.seen % 2 ^ 32
  answers : log.answers = i.answers

theorem follows_start (memory : List UInt8) : Follows (Log.start memory) Ideal.start :=
  ⟨stores_start memory, le_rfl, rfl, rfl⟩

theorem firstWanted_lt {sessionId : UInt32} {k : Nat} {message : AddArgs} :
    ∀ {messages : List AddArgs}, Ideal.firstWanted sessionId messages = some (k, message) →
      k < messages.length := by
  intro messages
  induction messages generalizing k with
  | nil => exact fun h => nomatch h
  | cons m messages ih =>
    intro h
    rw [Ideal.firstWanted] at h
    split at h
    · obtain ⟨rfl, -⟩ := Prod.mk.inj (Option.some.inj h)
      exact Nat.succ_pos _
    · obtain ⟨r, hr, heq⟩ := map_eq_some_iff.mp h
      cases heq
      exact Nat.succ_lt_succ (ih hr)

theorem step_follows {client : Client} {log : Log} {i : Ideal} {e : Event} (h : Follows log i)
    (hmeets : Meets client log i e) :
    ∃ log', log.step client e = some log' ∧ log'.buf.bufferSize = log.buf.bufferSize ∧
      Follows log' (i.step client log.buf.bufferSize e) := by
  cases e with
  | add args =>
    obtain ⟨buf, hstep, hsize, hstores, hseen, hanswers, hlength⟩ :=
      @add_spec client log i h.stores args hmeets
    refine ⟨_, hstep, hsize, hstores, ?_, ?_, ?_⟩
    · rw [hseen]
      exact h.seen_le.trans hlength
    · rw [hseen]
      exact h.msgNum
    · rw [hanswers]
      exact h.answers
  | get maximumLength =>
    obtain ⟨hlag, hnext⟩ := hmeets
    have hwanted : ∀ r ∈ Ideal.firstWanted client.sessionId (i.messages.drop i.place),
        r.2.text.length ≤ maximumLength ∧
          InOnePiece log.buf (usedBy (i.fifo.entries.take (i.place + r.1 - i.fifo.popped)))
            r.2.text.length := by
      intro r hr
      refine hnext (i.place + r.1, r.2) ?_
      rw [Ideal.next, mem_def.mp hr]
      rfl
    have hstep := @get_spec client log i h.stores i.seen h.seen_le h.msgNum hlag maximumLength
      fun r hr _ => (hwanted r hr).2
    have hplace : max i.fifo.popped i.seen = i.place := rfl
    rw [hplace] at hstep
    refine ⟨_, hstep, rfl, ?_⟩
    show Follows _ (i.get client.sessionId maximumLength)
    rw [Ideal.get, Ideal.next]
    cases hfirst : Ideal.firstWanted client.sessionId (i.messages.drop i.place) with
    | none =>
      refine ⟨⟨h.stores.refines, h.stores.messages, h.stores.seqCounter, h.stores.seqNumber⟩,
        h.seen_le, h.msgNum, ?_⟩
      show log.answers ++ [_] = i.answers ++ [_]
      rw [h.answers]
      show i.answers ++ [{ status := Status.noMoreEntries, msgNum := log.msgNum }] = _
      rw [h.msgNum]
    | some r =>
      obtain ⟨k, message⟩ := r
      obtain ⟨hfits, -⟩ := hwanted _ hfirst
      have hlt := firstWanted_lt hfirst
      rw [length_drop] at hlt
      have hanswer : told (client.args log.msgNum maximumLength) i.place (some (k, message)) =
          { status := .success
            msgNum := (i.place + k + 1) % 2 ^ 32
            msgid := some message.errorCode.toNat
            processId := some message.processId.toNat
            text := some message.text } := if_pos hfits
      rw [hanswer]
      simp only [map_some]
      rw [if_pos hfits]
      refine ⟨⟨h.stores.refines, h.stores.messages, h.stores.seqCounter, h.stores.seqNumber⟩,
        ?_, rfl, ?_⟩
      · show i.place + k + 1 ≤ i.messages.length
        omega
      · show log.answers ++ [_] = i.answers ++ [_]
        rw [h.answers]

theorem run_follows {client : Client} {events : List Event} : ∀ {log : Log} {i : Ideal},
    Follows log i → Clean client log i events →
      ∃ log', log.run client events = some log' ∧
        Follows log' (i.run client log.buf.bufferSize events) := by
  induction events with
  | nil => exact fun h _ => ⟨_, rfl, h⟩
  | cons e events ih =>
    intro log i h hclean
    obtain ⟨hmeets, hclean⟩ := hclean
    obtain ⟨log1, hstep, hsize, hfollows⟩ := step_follows h hmeets
    rw [hstep] at hclean
    obtain ⟨log', hrun, hfollows'⟩ := ih hfollows hclean
    rw [hsize] at hfollows'
    refine ⟨log', ?_, hfollows'⟩
    rw [Log.run, hstep]
    exact hrun

/-- **Messages arrive**: in a run whose steps all meet the condition, no byte outside of the
buffer is read, and the reader is told of each message of its session that is still there,
once, in their order and with all of their bytes. -/
theorem messages_arrive (client : Client) (memory : List UInt8) (events : List Event)
    (hclean : Clean client (Log.start memory) Ideal.start events) :
    ∃ log, (Log.start memory).run client events = some log ∧
      log.answers = (Ideal.start.run client memory.length events).answers := by
  obtain ⟨log, hrun, hfollows⟩ := run_follows (follows_start memory) hclean
  exact ⟨log, hrun, hfollows.answers⟩

def service : Client := ⟨⟨false, true, 0⟩, 0xFFFFFFFF, by decide⟩

def hi : AddArgs where
  errorCode := 0xC1
  strings := [[104, 105, 0]]
  lengths := none
  sessionId := 1
  processId := 42
  readable := by decide

theorem messages_arrive_hi :
    Clean service (Log.start (List.replicate 64 0)) Ideal.start [.add hi, .get 6] ∧
    ∃ log, (Log.start (List.replicate 64 0)).run service [.add hi, .get 6] = some log ∧
      log.answers = (Ideal.start.run service 64 [.add hi, .get 6]).answers := by
  have hclean : Clean service (Log.start (List.replicate 64 0)) Ideal.start [.add hi, .get 6] := by
    decide +kernel
  exact ⟨hclean, messages_arrive service (List.replicate 64 0) _ hclean⟩

def apiMemory : List UInt8 := List.replicate (8 * 8 * 1024) 0

/-- A reader whose buffer is too small for a message is past it all the same: it asks again
with more room and is told that there is nothing. -/
theorem small_buffer_loses : ¬ ∃ log,
    (Log.start apiMemory).run service [.add hi, .get 2, .get 100] = some log ∧
      log.answers = (Ideal.start.run service apiMemory.length
        [.add hi, .get 2, .get 100]).answers := by
  have hsize : apiMemory.length = 65536 := length_replicate
  have hadd : (Log.start apiMemory).buf.bufferSize = 65536 := hsize
  obtain ⟨buf, hstep, -, hstores, -⟩ := @add_spec service (Log.start apiMemory) Ideal.start
    (stores_start apiMemory) hi (by decide)
  rw [hadd] at hstores
  let lost : Answer :=
    { status := .bufferTooSmall, msgNum := 1, msgid := some 0xC1, processId := some 42 }
  have hfirst : Log.step service ⟨buf, 0, []⟩ (.get 2) = some ⟨buf, 1, [lost]⟩ :=
    @get_spec service ⟨buf, 0, []⟩ _ hstores 0 (by decide) rfl (by decide) 2 (fun r hr hlen => by
      obtain rfl : r = (0, hi) := (Option.some.inj hr).symm
      exact absurd hlen (by decide))
  have hsecond : Log.step service ⟨buf, 1, [lost]⟩ (.get 100) =
      some ⟨buf, 1, [lost, { status := .noMoreEntries, msgNum := 1 }]⟩ :=
    @get_spec service ⟨buf, 1, [lost]⟩ _ hstores 1 (by decide) rfl (by decide) 100
      (fun r hr _ => (nomatch hr))
  have hrun : (Log.start apiMemory).run service [.add hi, .get 2, .get 100] =
      some ⟨buf, 1, [lost, { status := .noMoreEntries, msgNum := 1 }]⟩ := by
    rw [Log.run, hstep]
    show Log.run service ⟨buf, 0, []⟩ [.get 2, .get 100] = _
    rw [Log.run, hfirst]
    show Log.run service ⟨buf, 1, [lost]⟩ [.get 100] = _
    rw [Log.run, hsecond]
    rfl
  rintro ⟨log, hlog, hanswers⟩
  obtain rfl := Option.some.inj (hrun.symm.trans hlog)
  rw [hsize] at hanswers
  have hideal : (Ideal.start.run service 65536 [.add hi, .get 2, .get 100]).answers ≠
      [lost, { status := .noMoreEntries, msgNum := 1 }] := by decide +kernel
  exact hideal hanswers.symm
end Sandboxie.ApiLog
