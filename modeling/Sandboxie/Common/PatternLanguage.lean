import Sandboxie.Common.PatternGlob

/-!
# The language of a pattern

A pattern text without a `__hex` form compiles to parts that are as long as they say.  For such a
text the search is set beside the glob: what the search takes is in the language, and what is in
the language is taken as long as no occurrence that overlaps the one before is needed.
-/

namespace Sandboxie.Pattern

open List

variable {towlower : WChar → WChar} {lower : Bool} {text : List WChar}

/-! ### Texts without a hex form -/

/-- No part of the text holds a `__hex`, and the lengths fit a `USHORT`. -/
structure HexFree (f : WChar → WChar) (text : List WChar) : Prop where
  hex : ¬ patternHex <:+: text.map f
  short : text.length < 2 ^ 16

variable {f : WChar → WChar}

theorem HexFree.piece {text part : List WChar} (h : HexFree f text)
    (hpart : part <:+: text) : HexFree f part :=
  ⟨fun hhex => h.hex (hhex.trans (hpart.map f)), hpart.length_le.trans_lt h.short⟩

theorem stands_iff_eq {part occ : List WChar} (hpart : qmark ∉ part) :
    Stands part occ ↔ occ = part := by
  constructor
  · intro h
    induction h with
    | nil => rfl
    | cons hfits _ ih =>
      rw [mem_cons, not_or] at hpart
      rcases hfits with rfl | hq
      · rw [ih hpart.2]
      · exact absurd hq.symm hpart.1
  · rintro rfl
    induction occ with
    | nil => exact .nil
    | cons c occ ih =>
      rw [mem_cons, not_or] at hpart
      exact .cons (.inl rfl) (ih hpart.2)

variable {text : List WChar}

theorem wcsnstr_hex (h : ¬ patternHex <:+: text) :
    wcsnstr text patternHex 5 = none := by
  have hwhole : Whole ⟨false, false, 5, patternHex⟩ := ⟨rfl, by decide, rfl⟩
  cases hfind : wcsnstr text patternHex 5 with
  | none => rfl
  | some off =>
    obtain ⟨gap, occ, rest, hfirst, -⟩ := (wcsnstrEx_iff hwhole).mp hfind
    have hocc : occ = patternHex := (stands_iff_eq (by decide)).mp hfirst.stands
    refine absurd ⟨gap, rest, ?_⟩ h
    rw [hfirst.split, hocc, append_assoc]

theorem whole_conOf {stars : Nat} {part : List WChar} (hpart : part ≠ [])
    (h : HexFree f part) : Whole (conOf f stars part) := by
  refine ⟨?_, ?_, ?_⟩
  · show (wcsnstr (part.map f) patternHex 5).isSome = false
    rw [wcsnstr_hex h.hex]
    rfl
  · exact fun hnil => hpart (map_eq_nil_iff.mp hnil)
  · show part.length % 2 ^ 16 = (part.map f).length
    rw [Nat.mod_eq_of_lt h.short, length_map]

/-- **Every part of a text is a piece of it.** -/
theorem mem_parts : ∀ (fuel : Nat) (later : Bool) (iptr : List WChar),
    ∀ con ∈ parts f fuel later iptr, ∃ stars part, part ≠ [] ∧ part <:+: iptr ∧
      con = conOf f stars part := by
  intro fuel
  induction fuel with
  | zero => exact fun _ _ _ h => nomatch h
  | succ fuel ih =>
    intro later iptr con hcon
    obtain ⟨front, part, rest, hsplit, hparts⟩ := parts_succ f fuel later iptr
    rw [hparts] at hcon
    by_cases hnil : part = []
    · rw [if_pos hnil] at hcon
      exact nomatch hcon
    rw [if_neg hnil] at hcon
    rcases mem_cons.mp hcon with rfl | hcon
    · exact ⟨_, part, hnil, ⟨front, rest, by rw [hsplit.append, append_assoc]⟩, rfl⟩
    · cases rest with
      | nil => exact nomatch hcon
      | cons c iptr2 =>
        obtain ⟨stars, part', hne, hpiece, rfl⟩ := ih _ _ _ hcon
        refine ⟨stars, part', hne, hpiece.trans ⟨front ++ (part ++ [c]), [], ?_⟩, rfl⟩
        rw [hsplit.append]
        simp

theorem length_parts : ∀ (fuel : Nat) (later : Bool) (iptr : List WChar),
    (parts f fuel later iptr).length ≤ iptr.length := by
  intro fuel
  induction fuel with
  | zero => exact fun _ _ => Nat.zero_le _
  | succ fuel ih =>
    intro later iptr
    obtain ⟨front, part, rest, hsplit, hparts⟩ := parts_succ f fuel later iptr
    rw [hparts]
    by_cases hnil : part = []
    · rw [if_pos hnil]
      exact Nat.zero_le _
    rw [if_neg hnil]
    have hlen : iptr.length = front.length + (part.length + rest.length) := by
      rw [hsplit.append, length_append, length_append]
    have hpos : 0 < part.length := length_pos_of_ne_nil hnil
    cases rest with
    | nil =>
      rw [length_singleton]
      omega
    | cons c iptr2 =>
      have hmore := ih true iptr2
      rw [length_cons] at hlen
      show (parts f fuel true iptr2).length + 1 ≤ _
      omega

theorem create_cons (towlower : WChar → WChar) (lower : Bool) (text : List WChar) (level : Nat) :
    (create towlower text lower level).cons =
      parts (lowered towlower lower) (text.length + 1) false text := by
  show createCons towlower lower (text.length + 1) text [] = _
  rw [createCons_eq]
  rfl

theorem compiled_create (h : HexFree (lowered towlower lower) text) (level : Nat) :
    Compiled (create towlower text lower level) := by
  refine ⟨fun con hcon => ?_, ?_⟩
  · rw [create_cons] at hcon
    obtain ⟨stars, part, hne, hpiece, rfl⟩ := mem_parts _ _ _ con hcon
    exact whole_conOf hne (h.piece hpiece)
  · have hcons := create_cons towlower lower text level
    have hlen := length_parts (f := lowered towlower lower) (text.length + 1) false text
    show (create towlower text lower level).cons.length % 2 ^ 16 = _
    rw [Nat.mod_eq_of_lt]
    rw [hcons]
    exact hlen.trans_lt h.short

/-! ### What is passed over -/

/-- A part that the text behind it may absorb when it is passed over: there is a gap behind it
that no restriction is put on. -/
def Absorbed (tail : Bool) : List Con → Prop
  | [] => tail = true
  | con :: _ => con.noBs = false

/-- **Passing over an occurrence does no harm:** what is passed over goes into the gap behind the
part, or into the gap in front of it and then has no backslash. -/
def Steady (tail : Bool) : Bool → List Con → Prop
  | _, [] => True
  | anchored, con :: cons => Steady tail false cons ∧ (Absorbed tail cons ∨
    anchored = false ∧ (con.noBs = true → backslash ∉ con.ptr ∧ qmark ∉ con.ptr))

instance (tail : Bool) : ∀ cons, Decidable (Absorbed tail cons)
  | [] => inferInstanceAs (Decidable (tail = true))
  | con :: _ => inferInstanceAs (Decidable (con.noBs = false))

instance (tail : Bool) : ∀ anchored cons, Decidable (Steady tail anchored cons)
  | _, [] => inferInstanceAs (Decidable True)
  | anchored, con :: cons =>
    have := instDecidableSteady tail false cons
    inferInstanceAs (Decidable (Steady tail false cons ∧ (Absorbed tail cons ∨
      anchored = false ∧ (con.noBs = true → backslash ∉ con.ptr ∧ qmark ∉ con.ptr))))

variable {cons : List Con}

variable {tail anchored : Bool}

theorem Steady.unanchored (h : Steady tail anchored cons) :
    Steady tail false cons := by
  cases cons with
  | nil => exact trivial
  | cons con cons => exact ⟨h.1, h.2.imp_right fun h => ⟨rfl, h.2⟩⟩

theorem Absorbed.decomp (habsorbed : Absorbed tail cons)
    (h : Decomp tail false cons text) (more : List WChar) :
    Decomp tail false cons (more ++ text) := by
  cases h with
  | done _ => exact .done (.inl habsorbed)
  | @next _ _ _ _ gap occ rest hsplit hstands _ _ h =>
    have hsplit' : more ++ text = (more ++ gap) ++ (occ ++ rest) := by
      rw [hsplit, append_assoc]
    exact .next hsplit' hstands nofun (fun hno => nomatch hno.symm.trans habsorbed) h

theorem Stands.not_mem {part occ : List WChar} (h : Stands part occ) {c : WChar} (hc : c ∉ part)
    (hq : qmark ∉ part) : c ∉ occ := by
  rw [(stands_iff_eq hq).mp h]
  exact hc

/-- A cut that passes over occurrences only where it does no harm. -/
inductive CleanCut (tail : Bool) : Bool → List Con → List WChar → Prop
  | done {anchored : Bool} {text : List WChar} (h : tail = true ∨ text = []) :
    CleanCut tail anchored [] text
  | next {anchored : Bool} {con : Con} {cons : List Con} {text gap occ rest : List WChar}
    (hfirst : First con text gap occ rest) (hstart : anchored = true → gap = [])
    (h : CleanCut tail false cons rest) : CleanCut tail anchored (con :: cons) text
  | again {anchored : Bool} {con : Con} {cons : List Con} {text gap occ rest : List WChar}
    (hfirst : First con text gap occ rest) (hstart : anchored = true → gap = [])
    (hpassed : Absorbed tail cons ∨ anchored = false ∧ (con.noBs = true → backslash ∉ occ))
    (h : CleanCut tail false (con :: cons) rest) : CleanCut tail anchored (con :: cons) text

theorem Cut.clean {cons : List Con} {text : List WChar}
    (h : Cut tail anchored cons text) (hsteady : Steady tail anchored cons) :
    CleanCut tail anchored cons text := by
  induction h with
  | done h => exact .done h
  | next hfirst hstart _ ih => exact .next hfirst hstart (ih hsteady.1)
  | again hfirst hstart _ ih =>
    refine .again hfirst hstart ?_ (ih hsteady.unanchored)
    refine hsteady.2.imp_right fun hno => ⟨hno.1, fun hnoBs => ?_⟩
    exact hfirst.stands.not_mem (hno.2 hnoBs).1 (hno.2 hnoBs).2

theorem CleanCut.decomp
    (h : CleanCut tail anchored cons text) : Decomp tail anchored cons text := by
  induction h with
  | done h => exact .done h
  | next hfirst hstart _ ih => exact .next hfirst.split hfirst.stands hstart hfirst.noBs ih
  | @again anchored con cons text gap occ rest hfirst hstart hpassed _ ih =>
    obtain ⟨gap', occ', rest', rfl, hstands', -, hbs', hrest⟩ := decomp_cons.mp ih
    rcases hpassed with habsorbed | ⟨rfl, hno⟩
    · -- the first occurrence stays, and what follows goes in front of the next part
      refine .next hfirst.split hfirst.stands hstart hfirst.noBs ?_
      have h := habsorbed.decomp hrest (gap' ++ occ')
      rwa [append_assoc] at h
    · have hsplit : text = (gap ++ (occ ++ gap')) ++ (occ' ++ rest') := by
        rw [hfirst.split]
        simp only [append_assoc]
      refine .next hsplit hstands' nofun (fun hnoBs => ?_) hrest
      simp only [mem_append, not_or]
      exact ⟨hfirst.noBs hnoBs, hno hnoBs, hbs' hnoBs⟩

/-! ### What the first places find -/

theorem exists_first {con : Con} (hno : con.noBs = false) (gap : List WChar) {occ : List WChar}
    (rest : List WChar) (hstands : Stands con.ptr occ) : ∃ gap' occ' rest' more,
      First con (gap ++ (occ ++ rest)) gap' occ' rest' ∧ rest' = more ++ rest ∧
        (gap = [] → gap' = []) := by
  induction gap with
  | nil =>
    exact ⟨[], occ, rest, [], ⟨rfl, hstands, nofun, fun _ => not_mem_nil⟩, rfl, fun _ => rfl⟩
  | cons x gap ih =>
    by_cases hagrees : agrees (x :: gap ++ (occ ++ rest)) con.ptr = true
    · obtain ⟨occ', rest', hsplit, hstands'⟩ := agrees_iff.mp hagrees
      have hmore : ∃ more, rest' = more ++ rest := by
        have hsuffix : rest <:+ occ' ++ rest' :=
          ⟨x :: gap ++ occ, by rw [← hsplit, append_assoc]⟩
        have hsuffix' : rest' <:+ occ' ++ rest' := suffix_append _ _
        refine (suffix_of_suffix_length_le hsuffix hsuffix' ?_).elim
          fun more h => ⟨more, h.symm⟩
        have hlen := congrArg List.length hsplit
        rw [length_append, length_append, length_append, hstands.length,
          hstands'.length] at hlen
        omega
      obtain ⟨more, rfl⟩ := hmore
      exact ⟨[], occ', _, more, ⟨hsplit, hstands', nofun, fun _ => not_mem_nil⟩, rfl,
        fun _ => rfl⟩
    · obtain ⟨gap', occ', rest', more, hfirst, hrest, -⟩ := ih
      refine ⟨x :: gap', occ', rest', more, ⟨congrArg (x :: ·) hfirst.split, hfirst.stands,
        fun i hi => ?_, fun h => nomatch hno.symm.trans h⟩, hrest, nofun⟩
      cases i with
      | zero => exact Bool.eq_false_iff.mpr hagrees
      | succ i => exact hfirst.before i (Nat.lt_of_succ_lt_succ hi)

/-- **With a star at the end, the first places are enough.** -/
theorem Decomp.cut (h : Decomp true anchored cons text) (hno : ∀ con ∈ cons, con.noBs = false) :
    Cut true anchored cons text := by
  induction cons generalizing anchored text with
  | nil => exact .done (.inl rfl)
  | cons con cons ih =>
    obtain ⟨gap, occ, rest, rfl, hstands, hstart, -, h⟩ := decomp_cons.mp h
    obtain ⟨gap', occ', rest', more, hfirst, rfl, hgap⟩ :=
      exists_first (hno con mem_cons_self) gap rest hstands
    have hmore : ∀ con' ∈ cons, con'.noBs = false := fun con' hmem =>
      hno con' (mem_cons_of_mem _ hmem)
    refine .next hfirst (fun ha => hgap (hstart ha)) (ih ?_ hmore)
    refine Absorbed.decomp ?_ h more
    cases cons with
    | nil => rfl
    | cons con' cons => exact hmore con' mem_cons_self

/-! ### The match -/

theorem decomp_single {con : Con} {s : List WChar} :
    Decomp false true [con] s ↔ Stands con.ptr s := by
  rw [decomp_cons]
  constructor
  · rintro ⟨gap, occ, rest, rfl, hstands, hstart, -, h⟩
    obtain rfl := hstart rfl
    obtain rfl := (decomp_nil.mp h).resolve_left nofun
    rw [append_nil]
    exact hstands
  · intro h
    refine ⟨[], s, [], (append_nil s).symm, h, fun _ => rfl, fun _ => not_mem_nil, ?_⟩
    exact .done (.inr rfl)

theorem cut_single {con : Con} {s : List WChar} (h : Stands con.ptr s) :
    Cut false true [con] s := by
  have hfirst : First con s [] s [] :=
    ⟨(append_nil s).symm, h, nofun, fun _ => not_mem_nil⟩
  exact .next hfirst (fun _ => rfl) (.done (.inr rfl))

theorem wcsnstr_eq_zero {con : Con} (hwhole : Whole con) {s : List WChar}
    (hlen : s.length = con.len) : wcsnstr s con.ptr con.len = some 0 ↔ Stands con.ptr s := by
  have hplain : Whole { con with noBs := false } := ⟨hwhole.hex, hwhole.pos, hwhole.len⟩
  refine (wcsnstrEx_iff hplain).trans ?_
  constructor
  · rintro ⟨gap, occ, rest, hfirst, hgap⟩
    obtain rfl := length_eq_zero_iff.mp hgap
    have hsplit : s = occ ++ rest := hfirst.split
    have hocc : occ.length = con.ptr.length := hfirst.stands.length
    have hrest : rest = [] := by
      rw [hsplit, length_append, hocc, ← hwhole.len] at hlen
      exact length_eq_zero_iff.mp (by omega)
    rw [hsplit, hrest, append_nil]
    exact hfirst.stands
  · intro h
    refine ⟨[], s, [], ⟨(append_nil s).symm, h, nofun, fun _ => not_mem_nil⟩, rfl⟩

section Create

variable {level : Nat}

theorem starMissing_cons (h : (create towlower text lower level).starMissing = true) :
    (create towlower text lower level).starAtHead = false ∧
      (create towlower text lower level).starAtTail = false ∧
      (create towlower text lower level).cons.length ≤ 1 := by
  have h' : (decide ((create towlower text lower level).cons.length ≤ 1) &&
      !(create towlower text lower level).starAtHead &&
      !(create towlower text lower level).starAtTail &&
      !(create towlower text lower level).cons.any (·.hex)) = true := h
  simp only [Bool.and_eq_true, decide_eq_true_eq, Bool.not_eq_true'] at h'
  exact ⟨h'.1.1.2, h'.1.2, h'.1.1.1⟩

theorem text_eq_nil (hcons : (create towlower text lower level).cons = [])
    (hhead : (create towlower text lower level).starAtHead = false) : text = [] := by
  rw [create_cons] at hcons
  obtain ⟨front, part, rest, hsplit, hparts⟩ :=
    parts_succ (lowered towlower lower) text.length false text
  rw [hparts] at hcons
  by_cases hnil : part = []
  · rw [hsplit.append, hnil, hsplit.last hnil, append_nil, append_nil]
    cases hfront : front with
    | nil => rfl
    | cons c front =>
      obtain rfl := hsplit.stars c (by rw [hfront]; exact mem_cons_self)
      have hhead' : (text.head? == some star) = false := hhead
      rw [hsplit.append, hfront] at hhead'
      exact nomatch hhead'
  · rw [if_neg hnil] at hcons
    exact nomatch hcons

/-- **A pattern without a star matches the texts that it stands for.** -/
theorem matchX_starMissing (htow : KeepsQmark towlower)
    (hfree : HexFree (lowered towlower lower) text)
    (hmissing : (create towlower text lower level).starMissing = true) (string : List WChar)
    (fuel : Nat) : ∃ n, matchX (create towlower text lower level) string fuel = some n ∧
      (n ≠ 0 ↔ text ≠ [] ∧ Decomp false true (create towlower text lower level).cons string) := by
  obtain ⟨hhead, -, hcount⟩ := starMissing_cons hmissing
  have hcompiled := compiled_create hfree level
  have hcreate := create_cons towlower lower text level
  have hqmark : (create towlower text lower level).haveAQmark = text.contains qmark := by
    show ((create towlower text lower level).starMissing && text.contains qmark) = _
    rw [hmissing, Bool.true_and]
  have hempty : (create towlower text lower level).cons = [] →
      (create towlower text lower level).starAtHead = false → text = [] := text_eq_nil
  generalize hpat : create towlower text lower level = pat at *
  rw [matchX, if_pos hmissing]
  cases hcons : pat.cons with
  | nil => exact ⟨0, rfl, iff_of_false (fun h => h rfl) fun h => h.1 (hempty hcons hhead)⟩
  | cons con cons =>
    rw [hcons, length_cons] at hcount
    obtain rfl := length_eq_zero_iff.mp (Nat.le_zero.mp (Nat.le_of_succ_le_succ hcount))
    have hmem : con ∈ pat.cons := by
      rw [hcons]
      exact mem_cons_self
    have hwhole := hcompiled.whole con hmem
    obtain ⟨stars, part, hne, hpiece, rfl⟩ := mem_parts _ _ _ con (hcreate ▸ hmem)
    have htext : text ≠ [] := by
      rintro rfl
      exact hne (infix_nil.mp hpiece)
    have hnum : pat.numCons ≠ 0 := by
      rw [hcompiled.num, hcons]
      exact Nat.one_ne_zero
    rw [decomp_single]
    dsimp only
    rw [if_neg hnum]
    by_cases hlen : string.length = (conOf (lowered towlower lower) stars part).len
    · rw [if_neg (not_not_intro hlen)]
      have hpos : string.length ≠ 0 := by
        rw [hlen, hwhole.len]
        exact fun h => hwhole.pos (length_eq_zero_iff.mp h)
      by_cases hq : pat.haveAQmark = true
      · rw [if_pos hq]
        have hiff := wcsnstr_eq_zero hwhole hlen
        split_ifs with hfind
        · exact ⟨0, rfl, iff_of_false (fun h => h rfl) fun h => hfind (hiff.mpr h.2)⟩
        · exact ⟨_, rfl, iff_of_true hpos ⟨htext, hiff.mp (not_not.mp hfind)⟩⟩
      · rw [if_neg hq]
        have hnot : qmark ∉ (conOf (lowered towlower lower) stars part).ptr := by
          intro hmem
          obtain ⟨c, hc, hlow⟩ := mem_map.mp hmem
          obtain rfl := (keepsQmark_lowered htow lower c).mp hlow
          refine hq ?_
          rw [hqmark, contains_iff_mem]
          exact hpiece.subset hc
        have htake : (conOf (lowered towlower lower) stars part).ptr.take
            (conOf (lowered towlower lower) stars part).len =
              (conOf (lowered towlower lower) stars part).ptr := by
          rw [hwhole.len, take_length]
        rw [htake, stands_iff_eq hnot]
        split_ifs with heq
        · exact ⟨0, rfl, iff_of_false (fun h => h rfl) fun h => heq h.2⟩
        · exact ⟨_, rfl, iff_of_true hpos ⟨htext, not_not.mp heq⟩⟩
    · rw [if_pos hlen]
      refine ⟨0, rfl, iff_of_false (fun h => h rfl) fun h => hlen ?_⟩
      rw [h.2.length, hwhole.len]

theorem matchX_star (hfree : HexFree (lowered towlower lower) text)
    (hstar : (create towlower text lower level).starMissing = false) {string : List WChar}
    {fuel : Nat} (hfuel : string.length + 1 < fuel) :
    ∃ n, matchX (create towlower text lower level) string fuel = some n ∧
      (n ≠ 0 ↔ Cut (text.getLast? == some star) (!(text.head? == some star))
        (create towlower text lower level).cons string) := by
  have hcompiled := compiled_create hfree level
  have hplain : (create towlower text lower level).Plain := by
    intro con hcon
    have hwhole := hcompiled.whole con hcon
    refine ⟨hwhole.hex, ?_⟩
    rw [hwhole.len]
    exact length_pos_of_ne_nil hwhole.pos
  obtain ⟨n, hn⟩ := Option.isSome_iff_exists.mp (matchX_isSome hplain hfuel)
  refine ⟨n, hn, ?_⟩
  rw [matchX, if_neg (by rw [hstar]; exact Bool.false_ne_true)] at hn
  have h := match2_iff hcompiled string fuel 0 0 n (Nat.zero_le _) hn
  rwa [drop_zero, drop_zero, decide_eq_true rfl, Bool.true_and] at h

theorem starMissing_eq_true (hfree : HexFree (lowered towlower lower) text)
    (hhead : (text.head? == some star) = false) (htail : (text.getLast? == some star) = false)
    (hcount : (create towlower text lower level).cons.length ≤ 1) :
    (create towlower text lower level).starMissing = true := by
  have hhex : (create towlower text lower level).cons.any (·.hex) = false := by
    rw [any_eq_false]
    intro con hcon
    rw [((compiled_create hfree level).whole con hcon).hex]
    exact Bool.false_ne_true
  show (decide ((create towlower text lower level).cons.length ≤ 1) &&
      !(text.head? == some star) && !(text.getLast? == some star) &&
      !(create towlower text lower level).cons.any (·.hex)) = true
  rw [hhead, htail, hhex, decide_eq_true hcount]
  rfl

theorem steady_of_noBs {tail anchored : Bool} {cons : List Con}
    (hno : ∀ con ∈ cons, con.noBs = false)
    (hone : tail = true ∨ anchored = false ∨ cons.length ≠ 1) : Steady tail anchored cons := by
  induction cons generalizing anchored with
  | nil => exact trivial
  | cons con cons ih =>
    have hmore : ∀ con' ∈ cons, con'.noBs = false := fun con' hmem =>
      hno con' (mem_cons_of_mem _ hmem)
    refine ⟨ih hmore (.inr (.inl rfl)), ?_⟩
    cases cons with
    | cons con' cons => exact .inl (hmore con' mem_cons_self)
    | nil =>
      rcases hone with htail | hanchored | hlen
      · exact .inl htail
      · exact .inr ⟨hanchored, fun h => nomatch h.symm.trans (hno con mem_cons_self)⟩
      · exact absurd rfl hlen

end Create

end Sandboxie.Pattern
