import Mathlib.Data.List.TakeWhile
import Sandboxie.Common.PatternCut
import Sandboxie.Lib.Glob

/-!
# Patterns as globs

What a pattern means: a star stands for any text and `?` for one character.  Two stars in front
of a part stand for a text without a backslash.
-/

namespace Sandboxie.Pattern

open List

/-! ### The parts of a text -/

/-- What `Pattern_Create` does to the characters of a part. -/
def lowered (towlower : WChar → WChar) (lower : Bool) (c : WChar) : WChar :=
  if lower then towlower c else c

/-- The constant part behind so many stars. -/
def conOf (f : WChar → WChar) (stars : Nat) (part : List WChar) : Con where
  hex := (wcsnstr (part.map f) patternHex 5).isSome
  noBs := stars == 2
  len := part.length % 2 ^ 16
  ptr := part.map f

/-- The constant parts of a text; `later` says that a star in front of it has been passed. -/
def parts (f : WChar → WChar) : Nat → Bool → List WChar → List Con
  | 0, _, _ => []
  | fuel + 1, later, iptr =>
    let stars := (iptr.takeWhile (· = star)).length
    let part := (iptr.drop stars).takeWhile (· ≠ star)
    if part = [] then []
    else
      conOf f ((if later then 1 else 0) + stars) part ::
        match (iptr.drop stars).drop part.length with
        | [] => []
        | _ :: iptr2 => parts f fuel true iptr2

/-- How a text begins: stars, a part, and what the next star starts. -/
structure Split (text front part rest : List WChar) : Prop where
  append : text = front ++ (part ++ rest)
  stars : ∀ c ∈ front, c = star
  const : star ∉ part
  next : ∀ c ∈ rest.head?, c = star
  last : part = [] → rest = []

theorem drop_takeWhile {α : Type} (p : α → Bool) (l : List α) :
    l.drop (l.takeWhile p).length = l.dropWhile p := by
  have h : (l.takeWhile p ++ l.dropWhile p).drop (l.takeWhile p).length = l.dropWhile p :=
    drop_left
  rwa [takeWhile_append_dropWhile] at h

theorem head_dropWhile {α : Type} {p : α → Bool} {l : List α} :
    ∀ c ∈ (l.dropWhile p).head?, p c = false := by
  intro c hc
  induction l with
  | nil => exact nomatch hc
  | cons x l ih =>
    rw [dropWhile_cons] at hc
    split at hc
    · exact ih hc
    · rename_i hx
      cases hc
      exact Bool.eq_false_iff.mpr hx

theorem split_takeWhile (text : List WChar) :
    Split text (text.takeWhile (· = star))
      ((text.drop (text.takeWhile (· = star)).length).takeWhile (· ≠ star))
      ((text.drop (text.takeWhile (· = star)).length).drop
        ((text.drop (text.takeWhile (· = star)).length).takeWhile (· ≠ star)).length) := by
  rw [drop_takeWhile]
  generalize hmore : text.dropWhile (· = star) = more
  rw [drop_takeWhile]
  refine ⟨?_, ?_, ?_, ?_, ?_⟩
  · rw [takeWhile_append_dropWhile, ← hmore, takeWhile_append_dropWhile]
  · intro c hc
    simpa using mem_takeWhile_imp hc
  · intro h
    simpa using mem_takeWhile_imp h
  · intro c hc
    have h := head_dropWhile c hc
    simpa using h
  · intro hnil
    cases more with
    | nil => rfl
    | cons c more =>
      have hc : decide (c = star) = false := head_dropWhile (l := text) c (by rw [hmore]; rfl)
      rw [takeWhile_cons_of_pos (by simpa using hc)] at hnil
      exact nomatch hnil

theorem parts_succ (f : WChar → WChar) (fuel : Nat) (later : Bool) (iptr : List WChar) :
    ∃ front part rest, Split iptr front part rest ∧ parts f (fuel + 1) later iptr =
      if part = [] then []
      else conOf f ((if later then 1 else 0) + front.length) part :: match rest with
        | [] => []
        | _ :: iptr2 => parts f fuel true iptr2 :=
  ⟨_, _, _, split_takeWhile iptr, rfl⟩

theorem createCons_eq (towlower : WChar → WChar) (lower : Bool) : ∀ fuel iptr cons,
    createCons towlower lower fuel iptr cons =
      cons ++ parts (lowered towlower lower) fuel (decide (0 < cons.length)) iptr := by
  intro fuel
  induction fuel with
  | zero =>
    intro iptr cons
    rw [createCons, parts, append_nil]
  | succ fuel ih =>
    intro iptr cons
    rw [createCons, parts]
    generalize hstars : (iptr.takeWhile (· = star)).length = stars
    generalize hiptr : iptr.drop stars = rest
    have hlower : ∀ part : List WChar, (if lower then part.map towlower else part) =
        part.map (lowered towlower lower) := by
      intro part
      cases lower with
      | true => rfl
      | false => exact (map_id' part).symm
    rw [hlower]
    have hlast := (split_takeWhile iptr).last
    rw [hstars, hiptr] at hlast
    by_cases hpart : rest.takeWhile (· ≠ star) = []
    · -- nothing but stars
      have hdrop := hlast hpart
      rw [hpart] at hdrop ⊢
      rw [hdrop]
      simp
    · have hlen : (rest.takeWhile (· ≠ star)).length ≠ 0 := fun h =>
        hpart (length_eq_zero_iff.mp h)
      rw [if_pos hlen, if_neg hpart]
      have hcount : (if 0 < cons.length then 1 else 0) =
          (if decide (0 < cons.length) then 1 else 0) := by
        simp
      cases hdrop : rest.drop (rest.takeWhile (· ≠ star)).length with
      | nil => rw [hcount]; rfl
      | cons c iptr2 =>
        dsimp only
        rw [ih, hcount, append_assoc, length_append]
        simp [conOf]

/-! ### Where the parts may stand -/

/-- **The string is made of the parts,** with a gap in front of each: no gap in front of the
first if the pattern starts with it, and no backslash in a gap that two stars stand for. -/
inductive Decomp (tail : Bool) : Bool → List Con → List WChar → Prop
  | done {anchored : Bool} {text : List WChar} (h : tail = true ∨ text = []) :
    Decomp tail anchored [] text
  | next {anchored : Bool} {con : Con} {cons : List Con} {text gap occ rest : List WChar}
    (hsplit : text = gap ++ (occ ++ rest)) (hstands : Stands con.ptr occ)
    (hstart : anchored = true → gap = []) (hbs : con.noBs = true → backslash ∉ gap)
    (h : Decomp tail false cons rest) : Decomp tail anchored (con :: cons) text

theorem decomp_nil {tail anchored : Bool} {text : List WChar} :
    Decomp tail anchored [] text ↔ tail = true ∨ text = [] := by
  refine ⟨?_, .done⟩
  rintro ⟨h⟩
  exact h

theorem decomp_cons {tail anchored : Bool} {con : Con} {cons : List Con} {text : List WChar} :
    Decomp tail anchored (con :: cons) text ↔ ∃ gap occ rest, text = gap ++ (occ ++ rest) ∧
      Stands con.ptr occ ∧ (anchored = true → gap = []) ∧ (con.noBs = true → backslash ∉ gap) ∧
      Decomp tail false cons rest := by
  constructor
  · rintro ⟨⟩
    exact ⟨_, _, _, ‹_›, ‹_›, ‹_›, ‹_›, ‹_›⟩
  · rintro ⟨gap, occ, rest, hsplit, hstands, hstart, hbs, h⟩
    exact .next hsplit hstands hstart hbs h

/-! ### The glob of a text -/

/-- What a character of a pattern text stands for. -/
def token (f : WChar → WChar) (c : WChar) : Glob.Token WChar :=
  if c = star then .any fun _ => True
  else if c = qmark then .one fun _ => True
  else .one fun x => x = f c

def glob (f : WChar → WChar) (text : List WChar) : List (Glob.Token WChar) := text.map (token f)

theorem glob_append (f : WChar → WChar) (l₁ l₂ : List WChar) :
    glob f (l₁ ++ l₂) = glob f l₁ ++ glob f l₂ := map_append

/-- Changing the case makes no question mark and takes none. -/
def KeepsQmark (f : WChar → WChar) : Prop := ∀ c, f c = qmark ↔ c = qmark

theorem keepsQmark_lowered {towlower : WChar → WChar} (h : KeepsQmark towlower) (lower : Bool) :
    KeepsQmark (lowered towlower lower) := by
  intro c
  cases lower with
  | true => exact h c
  | false => exact Iff.rfl

theorem matches_part {f : WChar → WChar} (hf : KeepsQmark f) {part : List WChar}
    (hpart : star ∉ part) {s : List WChar} :
    Glob.Matches (glob f part) s ↔ Stands (part.map f) s := by
  have hglob : glob f part = (part.map f).map fun n => .one (Fits n) := by
    rw [glob, map_map]
    refine map_congr_left fun c hc => ?_
    have hstar : c ≠ star := fun h => hpart (h ▸ hc)
    rw [token, if_neg hstar, Function.comp_apply]
    split_ifs with hqmark
    · congr 1
      funext x
      exact (eq_true (.inr ((hf c).mpr hqmark))).symm
    · congr 1
      funext x
      refine propext ⟨.inl, ?_⟩
      rintro (h | h)
      · exact h
      · exact absurd ((hf c).mp h) hqmark
  rw [hglob]
  exact Glob.matches_ones

def passed (later : Bool) (iptr : List WChar) : List WChar :=
  if later then star :: iptr else iptr

theorem Split.passed {later : Bool} {iptr front part rest : List WChar}
    (hsplit : Split iptr front part rest) (htwo : ¬ [star, star] <:+: passed later iptr) :
    passed later iptr = part ++ rest ∧ (if later then 1 else 0) + front.length = 0 ∨
      passed later iptr = star :: (part ++ rest) ∧
        (if later then 1 else 0) + front.length = 1 := by
  have happend := hsplit.append
  cases front with
  | nil =>
    cases later with
    | false => exact .inl ⟨happend, rfl⟩
    | true => exact .inr ⟨congrArg (star :: ·) happend, rfl⟩
  | cons c front =>
    obtain rfl := hsplit.stars c mem_cons_self
    have hnil : later = false ∧ front = [] := by
      by_contra hmore
      refine htwo ?_
      rw [Pattern.passed, happend]
      cases later with
      | true => exact ⟨[], front ++ (part ++ rest), rfl⟩
      | false =>
        cases front with
        | nil => exact absurd ⟨rfl, rfl⟩ hmore
        | cons d front =>
          obtain rfl := hsplit.stars d (mem_cons_of_mem _ mem_cons_self)
          exact ⟨[], front ++ (part ++ rest), rfl⟩
    obtain ⟨rfl, rfl⟩ := hnil
    exact .inr ⟨happend, rfl⟩

theorem Split.passed_next {later : Bool} {iptr front part iptr2 : List WChar} {c : WChar}
    (hsplit : Split iptr front part (c :: iptr2))
    (htwo : ¬ [star, star] <:+: Pattern.passed later iptr) :
    ¬ [star, star] <:+: Pattern.passed true iptr2 := by
  obtain rfl := hsplit.next c rfl
  intro hpiece
  refine htwo (hpiece.trans ?_)
  rcases hsplit.passed htwo with ⟨htext, -⟩ | ⟨htext, -⟩
  · exact ⟨part, [], by rw [htext, append_nil]; rfl⟩
  · exact ⟨star :: part, [], by rw [htext, append_nil]; rfl⟩

theorem noBs_parts (f : WChar → WChar) : ∀ (fuel : Nat) (later : Bool) (iptr : List WChar),
    ¬ [star, star] <:+: passed later iptr → ∀ con ∈ parts f fuel later iptr,
      con.noBs = false := by
  intro fuel
  induction fuel with
  | zero => exact fun _ _ _ _ h => nomatch h
  | succ fuel ih =>
    intro later iptr htwo con hcon
    obtain ⟨front, part, rest, hsplit, hparts⟩ := parts_succ f fuel later iptr
    rw [hparts] at hcon
    by_cases hnil : part = []
    · rw [if_pos hnil] at hcon
      exact nomatch hcon
    rw [if_neg hnil] at hcon
    rcases mem_cons.mp hcon with rfl | hcon
    · rcases hsplit.passed htwo with ⟨-, hstars⟩ | ⟨-, hstars⟩
      · rw [hstars]
        rfl
      · rw [hstars]
        rfl
    · cases rest with
      | nil => exact nomatch hcon
      | cons c iptr2 => exact ih true iptr2 (hsplit.passed_next htwo) con hcon

theorem getLast_append {part rest : List WChar} (hpart : star ∉ part) :
    ((part ++ rest).getLast? == some star) = (rest.getLast? == some star) := by
  rw [getLast?_append]
  cases hrest : rest.getLast? with
  | some c => rfl
  | none =>
    rw [Option.none_or]
    have hne : part.getLast? ≠ some star := fun h => hpart (mem_of_getLast? h)
    rw [beq_eq_false_iff_ne.mpr hne]
    rfl

/-- **Without two stars in a row, the parts of a text say what its glob says.** -/
theorem matches_iff_decomp {f : WChar → WChar} (hf : KeepsQmark f) :
    ∀ (fuel : Nat) (later : Bool) (iptr : List WChar), iptr.length < fuel →
      ¬ [star, star] <:+: passed later iptr → ∀ s,
      (Glob.Matches (glob f (passed later iptr)) s ↔
        Decomp ((passed later iptr).getLast? == some star)
          (!((passed later iptr).head? == some star)) (parts f fuel later iptr) s) := by
  intro fuel
  induction fuel with
  | zero => exact fun _ _ h => nomatch h
  | succ fuel ih =>
    intro later iptr hfuel htwo s
    obtain ⟨front, part, rest, hsplit, hparts⟩ := parts_succ f fuel later iptr
    rw [hparts]
    generalize hcons : (match rest with
      | [] => []
      | _ :: iptr2 => parts f fuel true iptr2) = cons
    have hlen : iptr.length = front.length + (part.length + rest.length) := by
      rw [hsplit.append, length_append, length_append]
    have hfront := hsplit.passed htwo
    by_cases hnil : part = []
    · obtain rfl := hsplit.last hnil
      subst hnil
      rw [if_pos rfl, decomp_nil]
      rcases hfront with ⟨htext, -⟩ | ⟨htext, -⟩
      · rw [htext, nil_append, glob, map_nil, Glob.matches_nil]
        simp
      · rw [htext, nil_append]
        refine iff_of_true (Glob.matches_any.mpr ⟨s, [], (append_nil s).symm, ?_, .nil⟩) ?_
        · exact fun _ _ => trivial
        · exact .inl (by simp)
    · rw [if_neg hnil]
      -- what follows the part
      have hrest : ∀ t, Glob.Matches (glob f rest) t ↔
          Decomp (rest.getLast? == some star) false cons t := by
        intro t
        cases rest with
        | nil =>
          subst hcons
          rw [decomp_nil, glob, map_nil, Glob.matches_nil]
          simp
        | cons c iptr2 =>
          obtain rfl := hsplit.next c rfl
          have hshort : iptr2.length < fuel := by
            rw [length_cons] at hlen
            omega
          have htwo2 := hsplit.passed_next htwo
          have h := ih true iptr2 hshort htwo2 t
          rw [← hcons]
          exact h
      have hboth : ∀ t, Glob.Matches (glob f (part ++ rest)) t ↔ ∃ occ more, t = occ ++ more ∧
          Stands (part.map f) occ ∧ Decomp (rest.getLast? == some star) false cons more := by
        intro t
        rw [glob_append, Glob.matches_append]
        simp only [matches_part hf hsplit.const, hrest]
      rw [decomp_cons]
      rcases hfront with ⟨htext, hstars⟩ | ⟨htext, hstars⟩
      · have hhead : ((part ++ rest).head? == some star) = false := by
          obtain ⟨c, part', rfl⟩ := exists_cons_of_ne_nil hnil
          have hc : c ≠ star := fun h => hsplit.const (h ▸ mem_cons_self)
          simpa using hc
        rw [htext, hboth, hhead, getLast_append hsplit.const, hstars]
        constructor
        · rintro ⟨occ, more, rfl, hstands, h⟩
          exact ⟨[], occ, more, rfl, hstands, fun _ => rfl, nofun, h⟩
        · rintro ⟨gap, occ, more, rfl, hstands, hstart, -, h⟩
          obtain rfl := hstart rfl
          exact ⟨occ, more, rfl, hstands, h⟩
      · have hlast : ((star :: (part ++ rest)).getLast? == some star) =
            (rest.getLast? == some star) := by
          refine Eq.trans ?_ (getLast_append hsplit.const)
          cases hmore : part ++ rest with
          | nil => exact absurd (append_eq_nil_iff.mp hmore).1 hnil
          | cons c more => rw [getLast?_cons_cons]
        rw [htext, hlast, hstars]
        refine Glob.matches_any.trans ?_
        constructor
        · rintro ⟨gap, more, rfl, -, h⟩
          obtain ⟨occ, rest', rfl, hstands, h⟩ := (hboth more).mp h
          exact ⟨gap, occ, rest', rfl, hstands, nofun, nofun, h⟩
        · rintro ⟨gap, occ, rest', rfl, hstands, -, -, h⟩
          exact ⟨gap, _, rfl, fun _ _ => trivial, (hboth _).mpr ⟨occ, rest', rfl, hstands, h⟩⟩

end Sandboxie.Pattern
