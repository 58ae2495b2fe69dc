import Mathlib.Data.List.Forall2
import Mathlib.Tactic.Common
import Sandboxie.Common.Pattern

/-!
# What the search for the parts of a pattern finds

`Pattern_Match2` takes each constant part where it stands first, and goes on behind it: with the
next part, and if that fails with the same part again.  A string that it matches is one that can
be cut in this way.  Where the parts stand at all is another question: an occurrence that
overlaps the one before is passed over, and what is passed over may hold a backslash.
-/

namespace Sandboxie.Pattern

open List

/-- A character of a part, where `?` is any character. -/
def Fits (n x : WChar) : Prop := x = n ∨ n = qmark

def Stands (part occ : List WChar) : Prop := List.Forall₂ Fits part occ

theorem Stands.length {part occ : List WChar} (h : Stands part occ) : occ.length = part.length :=
  (List.Forall₂.length_eq h).symm

theorem agrees_iff {part : List WChar} : ∀ {text : List WChar},
    agrees text part = true ↔ ∃ occ rest, text = occ ++ rest ∧ Stands part occ := by
  induction part with
  | nil =>
    intro text
    refine ⟨fun _ => ⟨[], text, rfl, .nil⟩, fun _ => ?_⟩
    cases text <;> rfl
  | cons n part ih =>
    intro text
    cases text with
    | nil =>
      refine ⟨nofun, ?_⟩
      rintro ⟨occ, rest, hsplit, hstands⟩
      have hlen := hstands.length
      obtain ⟨rfl, -⟩ := append_eq_nil_iff.mp hsplit.symm
      exact nomatch hlen
    | cons x text =>
      rw [agrees, Bool.and_eq_true, Bool.or_eq_true, beq_iff_eq, beq_iff_eq, ih]
      constructor
      · rintro ⟨hfits, occ, rest, rfl, hstands⟩
        exact ⟨x :: occ, rest, rfl, .cons hfits hstands⟩
      · rintro ⟨occ, rest, hsplit, hstands⟩
        cases hstands with
        | cons hfits hstands =>
          obtain ⟨rfl, hmore⟩ := List.cons.inj hsplit
          exact ⟨hfits, _, rest, hmore, hstands⟩

/-- A part without a hex form, that is as long as it says. -/
structure Whole (con : Con) : Prop where
  hex : con.hex = false
  pos : con.ptr ≠ []
  len : con.len = con.ptr.length

/-- The part stands in the text behind a gap, and nowhere before. -/
structure First (con : Con) (text gap occ rest : List WChar) : Prop where
  split : text = gap ++ (occ ++ rest)
  stands : Stands con.ptr occ
  before : ∀ i < gap.length, agrees (text.drop i) con.ptr = false
  noBs : con.noBs = true → backslash ∉ gap

theorem wcsnstrEx_cons {con : Con} (hwhole : Whole con) (x : WChar) (text : List WChar) :
    wcsnstrEx (x :: text) con.ptr con.len con.noBs =
      if agrees (x :: text) con.ptr then some 0
      else if con.noBs && x == backslash then none
      else (wcsnstrEx text con.ptr con.len con.noBs).map (· + 1) := by
  obtain ⟨n, part, hptr⟩ := exists_cons_of_ne_nil hwhole.pos
  have htake : con.ptr.take con.len = con.ptr := by
    rw [hwhole.len, take_length]
  rw [wcsnstrEx, htake, hptr, headD_cons]
  congr 1
  simp only [agrees, eq_iff_iff, Bool.and_eq_true]
  exact ⟨fun h => h.2, fun h => ⟨h.1, h⟩⟩

/-- **The search finds the first place.** -/
theorem wcsnstrEx_iff {con : Con} (hwhole : Whole con) : ∀ {text : List WChar} {off : Nat},
    wcsnstrEx text con.ptr con.len con.noBs = some off ↔
      ∃ gap occ rest, First con text gap occ rest ∧ gap.length = off := by
  intro text
  induction text with
  | nil =>
    intro off
    refine ⟨nofun, ?_⟩
    rintro ⟨gap, occ, rest, hfirst, -⟩
    have hlen := hfirst.stands.length
    obtain ⟨-, hocc⟩ := append_eq_nil_iff.mp hfirst.split.symm
    rw [(append_eq_nil_iff.mp hocc).1] at hlen
    exact absurd (length_eq_zero_iff.mp hlen.symm) hwhole.pos
  | cons x text ih =>
    intro off
    rw [wcsnstrEx_cons hwhole]
    by_cases hagrees : agrees (x :: text) con.ptr = true
    · rw [if_pos hagrees]
      constructor
      · intro h
        cases h
        obtain ⟨occ, rest, hsplit, hstands⟩ := agrees_iff.mp hagrees
        exact ⟨[], occ, rest, ⟨hsplit, hstands, nofun, fun _ => not_mem_nil⟩, rfl⟩
      · rintro ⟨gap, occ, rest, hfirst, rfl⟩
        cases gap with
        | nil => rfl
        | cons g gap =>
          have hnot := hfirst.before 0 (Nat.succ_pos _)
          rw [drop_zero, hagrees] at hnot
          exact nomatch hnot
    · rw [if_neg hagrees]
      by_cases hbs : (con.noBs && x == backslash) = true
      · rw [if_pos hbs]
        refine ⟨nofun, ?_⟩
        rintro ⟨gap, occ, rest, hfirst, rfl⟩
        rw [Bool.and_eq_true, beq_iff_eq] at hbs
        cases gap with
        | nil => exact absurd (agrees_iff.mpr ⟨occ, rest, hfirst.split, hfirst.stands⟩) hagrees
        | cons g gap =>
          obtain ⟨rfl, -⟩ := List.cons.inj hfirst.split
          exact absurd (hbs.2 ▸ mem_cons_self) (hfirst.noBs hbs.1)
      · rw [if_neg hbs, Option.map_eq_some_iff]
        rw [Bool.and_eq_true, beq_iff_eq, not_and] at hbs
        constructor
        · rintro ⟨off', hoff', rfl⟩
          obtain ⟨gap, occ, rest, hfirst, rfl⟩ := ih.mp hoff'
          refine ⟨x :: gap, occ, rest, ⟨congrArg (x :: ·) hfirst.split, hfirst.stands,
            fun i hi => ?_, fun hno hmem => ?_⟩, rfl⟩
          · cases i with
            | zero => exact Bool.eq_false_iff.mpr hagrees
            | succ i => exact hfirst.before i (Nat.lt_of_succ_lt_succ hi)
          · rcases mem_cons.mp hmem with heq | hmem
            · exact hbs hno heq.symm
            · exact hfirst.noBs hno hmem
        · rintro ⟨gap, occ, rest, hfirst, rfl⟩
          cases gap with
          | nil => exact absurd (agrees_iff.mpr ⟨occ, rest, hfirst.split, hfirst.stands⟩) hagrees
          | cons g gap =>
            obtain ⟨rfl, hsplit⟩ := List.cons.inj hfirst.split
            refine ⟨gap.length, ih.mpr ⟨gap, occ, rest, ⟨hsplit, hfirst.stands, fun i hi => ?_,
              fun hno hmem => hfirst.noBs hno (mem_cons_of_mem _ hmem)⟩, rfl⟩, rfl⟩
            exact hfirst.before (i + 1) (Nat.succ_lt_succ hi)

/-- **The string can be cut into the parts:** each stands at its first place behind the one
before, and may be taken again behind itself. -/
inductive Cut (tail : Bool) : Bool → List Con → List WChar → Prop
  | done {anchored : Bool} {text : List WChar} (h : tail = true ∨ text = []) :
    Cut tail anchored [] text
  | next {anchored : Bool} {con : Con} {cons : List Con} {text gap occ rest : List WChar}
    (hfirst : First con text gap occ rest) (hstart : anchored = true → gap = [])
    (h : Cut tail false cons rest) : Cut tail anchored (con :: cons) text
  | again {anchored : Bool} {con : Con} {cons : List Con} {text gap occ rest : List WChar}
    (hfirst : First con text gap occ rest) (hstart : anchored = true → gap = [])
    (h : Cut tail false (con :: cons) rest) : Cut tail anchored (con :: cons) text

/-- What a compiled pattern has to be for it: parts without a hex form, and counts that fit. -/
structure Compiled (pat : Pattern) : Prop where
  whole : ∀ con ∈ pat.cons, Whole con
  num : pat.numCons = pat.cons.length

/-- **A search succeeds exactly where the string can be cut.** -/
theorem match2_iff {pat : Pattern} (hpat : Compiled pat) (string : List WChar) :
    ∀ fuel strIndex conIndex n, strIndex ≤ string.length →
      match2 pat string fuel strIndex conIndex = some n →
      (n ≠ 0 ↔ Cut pat.starAtTail (decide (strIndex = 0) && !pat.starAtHead)
        (pat.cons.drop conIndex) (string.drop strIndex)) := by
  intro fuel
  induction fuel with
  | zero =>
    intro _ _ _ _ h
    cases h
  | succ fuel ih =>
    intro strIndex conIndex n hle h
    rw [match2] at h
    by_cases hcon : conIndex < pat.numCons
    · rw [if_pos hcon] at h
      have hlt : conIndex < pat.cons.length := hpat.num ▸ hcon
      have hdrop : pat.cons.drop conIndex = pat.cons[conIndex] :: pat.cons.drop (conIndex + 1) :=
        drop_eq_getElem_cons hlt
      have hwhole := hpat.whole _ (getElem_mem hlt)
      rw [getElem?_eq_getElem hlt] at h
      rw [hdrop]
      generalize pat.cons[conIndex] = con at h hdrop hwhole ⊢
      dsimp only at h
      cases hfind : wcsnstrEx (string.drop strIndex) con.ptr con.len con.noBs with
      | none =>
        rw [hfind] at h
        rw [if_neg (by rw [hwhole.hex]; exact Bool.false_ne_true)] at h
        cases h
        refine iff_of_false (fun h => h rfl) fun hcut => ?_
        have hnone : ∀ gap occ rest, ¬ First con (string.drop strIndex) gap occ rest := by
          intro gap occ rest hfirst
          have hsome := (wcsnstrEx_iff hwhole).mpr ⟨gap, occ, rest, hfirst, rfl⟩
          cases hfind.symm.trans hsome
        cases hcut with
        | next hfirst => exact hnone _ _ _ hfirst
        | again hfirst => exact hnone _ _ _ hfirst
      | some off =>
        rw [hfind] at h
        dsimp only at h
        obtain ⟨gap, occ, rest, hfirst, hoff⟩ := (wcsnstrEx_iff hwhole).mp hfind
        -- the search finds one place only
        have hunique : ∀ {gap' occ' rest'}, First con (string.drop strIndex) gap' occ' rest' →
            gap'.length = off ∧ rest' = string.drop (strIndex + off + con.len) := by
          intro gap' occ' rest' hfirst'
          have hsome := (wcsnstrEx_iff hwhole).mpr ⟨gap', occ', rest', hfirst', rfl⟩
          have hlen := Option.some.inj (hsome.symm.trans hfind)
          refine ⟨hlen, ?_⟩
          have hall : (string.drop strIndex).drop (gap'.length + occ'.length) = rest' := by
            rw [hfirst'.split, ← append_assoc, ← length_append, drop_left]
          rw [← hall, drop_drop, hlen, hfirst'.stands.length, ← hwhole.len, Nat.add_assoc]
        have hbound : strIndex + off + con.len ≤ string.length := by
          have hlen := congrArg List.length hfirst.split
          rw [length_drop, length_append, length_append, hoff,
            hfirst.stands.length, ← hwhole.len] at hlen
          omega
        have hpos : 0 < con.len := by
          rw [hwhole.len]
          exact length_pos_of_ne_nil hwhole.pos
        have hlater : (decide (strIndex + off + con.len = 0) && !pat.starAtHead) = false := by
          rw [decide_eq_false (by omega), Bool.false_and]
        by_cases hstart : strIndex = 0 ∧ 0 < off ∧ pat.starAtHead = false
        · rw [if_pos hstart] at h
          cases h
          refine iff_of_false (fun h => h rfl) fun hcut => ?_
          have hanchored : (decide (strIndex = 0) && !pat.starAtHead) = true := by
            rw [decide_eq_true hstart.1, hstart.2.2]
            rfl
          have hgap : ∀ {gap' occ' rest'}, First con (string.drop strIndex) gap' occ' rest' →
              gap' ≠ [] := by
            intro gap' occ' rest' hfirst' hnil
            have hlen := (hunique hfirst').1
            rw [hnil] at hlen
            exact absurd hstart.2.1 (by rw [← hlen]; exact Nat.lt_irrefl 0)
          cases hcut with
          | next hfirst' hanch => exact hgap hfirst' (hanch hanchored)
          | again hfirst' hanch => exact hgap hfirst' (hanch hanchored)
        · rw [if_neg hstart] at h
          have hanch : (decide (strIndex = 0) && !pat.starAtHead) = true → gap = [] := by
            intro hanchored
            rw [Bool.and_eq_true, decide_eq_true_eq, Bool.not_eq_true'] at hanchored
            have hzero : ¬ 0 < off := fun hlt => hstart ⟨hanchored.1, hlt, hanchored.2⟩
            exact length_eq_zero_iff.mp (by omega)
          cases hnext : match2 pat string fuel (strIndex + off + con.len) (conIndex + 1) with
          | none =>
            rw [hnext] at h
            cases h
          | some len =>
            rw [hnext] at h
            have hcutNext := ih _ _ _ hbound hnext
            rw [hlater] at hcutNext
            have hrest := (hunique hfirst).2
            cases len with
            | succ len =>
              cases h
              refine iff_of_true (Nat.succ_ne_zero len) (.next hfirst hanch ?_)
              rw [hrest]
              exact hcutNext.mp (Nat.succ_ne_zero len)
            | zero =>
              have hcutAgain := ih _ _ _ hbound h
              rw [hlater, hdrop] at hcutAgain
              rw [hcutAgain]
              have hnot : ¬ Cut pat.starAtTail false (pat.cons.drop (conIndex + 1)) rest := by
                rw [hrest]
                exact fun hcut => hcutNext.mpr hcut rfl
              rw [← hrest]
              constructor
              · exact fun hcut => .again hfirst hanch hcut
              intro hcut
              cases hcut with
              | next hfirst' _ hcut' =>
                rw [(hunique hfirst').2, ← hrest] at hcut'
                exact absurd hcut' hnot
              | again hfirst' _ hcut' =>
                rw [(hunique hfirst').2, ← hrest] at hcut'
                exact hcut'
    · rw [if_neg hcon] at h
      have hnil : pat.cons.drop conIndex = [] :=
        drop_eq_nil_of_le (hpat.num ▸ Nat.not_lt.mp hcon)
      rw [hnil]
      have hdone : Cut pat.starAtTail (decide (strIndex = 0) && !pat.starAtHead) []
          (string.drop strIndex) ↔ pat.starAtTail = true ∨ strIndex = string.length := by
        have hempty : string.drop strIndex = [] ↔ strIndex = string.length := by
          rw [drop_eq_nil_iff]
          omega
        constructor
        · rintro ⟨h⟩
          exact h.imp_right hempty.mp
        · exact fun h => .done (h.imp_right hempty.mpr)
      rw [hdone]
      split_ifs at h with hend
      · cases h
        refine iff_of_false (fun h => h rfl) ?_
        rintro (htail | heq)
        · cases htail.symm.trans hend.2
        · exact hend.1 heq
      · cases h
        refine iff_of_true (Nat.succ_ne_zero _) ?_
        by_cases heq : strIndex = string.length
        · exact Or.inr heq
        · exact Or.inl (by simpa using fun hfalse => hend ⟨heq, hfalse⟩)

end Sandboxie.Pattern
