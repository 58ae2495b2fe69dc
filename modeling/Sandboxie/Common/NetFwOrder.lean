import Sandboxie.Common.NetFwMerge
import Mathlib.Data.List.Perm.Basic

/-!
# The order in which rules are added

`addRules` adds rules one after the other.  Two things can make the answer depend on
the order: a fold that hides a range of the rule it takes in (`FoldHides`), and two
records each of which is better than the other (`Overtakes`).  `orderFree_of_clean`
says that nothing else does: without the two, the answer is a block exactly when a
rule of the greatest rank blocks, whatever the order.
-/

namespace Sandboxie.NetFw

open RangeMap KeepBest List

/-- Folding the new rule hides one of its ranges from a packet that it matches. -/
def FoldHides (list : List Rule) (new_rule : Rule) : Prop :=
  ∃ pre rule post, FoldsAt list new_rule pre rule post ∧
    ∃ t, matchRule new_rule t ≠ none ∧ Hidden rule new_rule t

/-- No rule that is added to `list` in turn has a range hidden. -/
def AddsClean : List Rule → List Rule → Prop
  | _, [] => True
  | list, new_rule :: rest => ¬ FoldHides list new_rule ∧ AddsClean (addRule list new_rule) rest

/-- In every order the rules are added without hiding a range. -/
def NoHiding (rules : List Rule) : Prop := ∀ rules', rules'.Perm rules → AddsClean [] rules'

/-- No two rules match a packet in such a way that one record overtakes the other. -/
def NoProtocolTie (rules : List Rule) : Prop :=
  ∀ t, ∀ a ∈ records rules t, ∀ b ∈ records rules t, ¬ Overtakes a b

/-- The order of the rules does not matter: not for the answer, and the comparison of
their records is a strict order in which a block wins a tie. -/
structure OrderFree (rules : List Rule) : Prop where
  same : ∀ rules', rules'.Perm rules →
    ∀ t, blockTraffic (addRules rules') t = blockTraffic (addRules rules) t
  asymm : ∀ t, ∀ a ∈ records rules t, ∀ b ∈ records rules t,
    isBetterMatch a b = true → isBetterMatch b a = false
  trans : ∀ t, ∀ a ∈ records rules t, ∀ b ∈ records rules t, ∀ c ∈ records rules t,
    isBetterMatch a b = true → isBetterMatch b c = true → isBetterMatch a c = true
  blockWins : ∀ t, ∀ b ∈ records rules t, b.blockAction = true →
    (∀ a ∈ records rules t, rank a ≤ rank b) → blockTraffic (addRules rules) t = true

/-! ### Clean folds -/

/-- `recs` holds records of `all` only, and for each of `all` one of the same action
that is at least as high. -/
structure Represents (recs all : List RuleMatch) : Prop where
  sound : ∀ m ∈ recs, m ∈ all
  covers : ∀ m ∈ all, ∃ o ∈ recs, rank m ≤ rank o ∧ o.blockAction = m.blockAction

theorem Represents.refl (recs : List RuleMatch) : Represents recs recs :=
  ⟨fun _ h => h, fun m h => ⟨m, h, le_rfl, rfl⟩⟩

theorem Represents.trans {a b c : List RuleMatch} (hab : Represents a b)
    (hbc : Represents b c) : Represents a c := by
  refine ⟨fun m hm => hbc.sound m (hab.sound m hm), fun m hm => ?_⟩
  obtain ⟨o, ho, hmo, hact⟩ := hbc.covers m hm
  obtain ⟨q, hq, hoq, hact'⟩ := hab.covers o ho
  exact ⟨q, hq, hmo.trans hoq, hact'.trans hact⟩

theorem Represents.append {a a' b b' : List RuleMatch} (ha : Represents a a')
    (hb : Represents b b') : Represents (a ++ b) (a' ++ b') := by
  constructor
  · intro m hm
    rcases mem_append.mp hm with hm | hm
    · exact mem_append_left _ (ha.sound m hm)
    · exact mem_append_right _ (hb.sound m hm)
  · intro m hm
    rcases mem_append.mp hm with hm | hm
    · obtain ⟨o, ho, h⟩ := ha.covers m hm
      exact ⟨o, mem_append_left _ ho, h⟩
    · obtain ⟨o, ho, h⟩ := hb.covers m hm
      exact ⟨o, mem_append_right _ ho, h⟩

theorem Represents.of_perm {a b c : List RuleMatch} (h : Represents a b) (hbc : b.Perm c) :
    Represents a c :=
  ⟨fun m hm => hbc.mem_iff.mp (h.sound m hm), fun m hm => h.covers m (hbc.mem_iff.mpr hm)⟩

theorem represents_outrank {o o' : Option RuleMatch}
    (haction : ∀ a ∈ o, ∀ b ∈ o', a.blockAction = b.blockAction) :
    Represents (outrank o o').toList (o.toList ++ o'.toList) := by
  cases o with
  | none => exact Represents.refl _
  | some a =>
    cases o' with
    | none => simpa [outrank] using Represents.refl [a]
    | some b =>
      have hab : a.blockAction = b.blockAction := haction a rfl b rfl
      by_cases hlt : rank b < rank a
      · refine ⟨by simp [outrank, hlt], ?_⟩
        simp [outrank, hlt, hlt.le, hab]
      · refine ⟨by simp [outrank, hlt], ?_⟩
        simp [outrank, hlt, not_lt.mp hlt, hab]

theorem represents_addRule {list : List Rule} {new_rule : Rule}
    (hclean : ¬ FoldHides list new_rule) (t : Traffic) :
    Represents (records (addRule list new_rule) t) (records (list ++ [new_rule]) t) := by
  rcases addRule_cases list new_rule with ⟨_, hadd⟩ | ⟨pre, rule, post, merged, hat, hm, hadd⟩
  · rw [hadd]
    exact Represents.refl _
  obtain ⟨⟨_, haction, _⟩, -⟩ := foldInto_cases hm
  obtain ⟨hhid, hnot⟩ := matchRule_foldInto hm t
  have hpart : Represents (matchRule merged t).toList
      ((matchRule rule t).toList ++ (matchRule new_rule t).toList) := by
    by_cases hid : Hidden rule new_rule t
    · have hnone : matchRule new_rule t = none := by
        by_contra hne
        exact hclean ⟨pre, rule, post, hat, t, hne, hid⟩
      rw [(hhid hid).1, (hhid hid).2, hnone]
      exact Represents.refl _
    · rw [hnot hid]
      refine represents_outrank fun a ha b hb => ?_
      rw [matchRule_blockAction ha, matchRule_blockAction hb, haction]
  have hrecs : records (pre ++ merged :: post) t =
      records pre t ++ ((matchRule merged t).toList ++ records post t) := by
    rw [records_append, records_cons]
  have hall : records (list ++ [new_rule]) t = records pre t ++
      ((matchRule rule t).toList ++ (records post t ++ (matchRule new_rule t).toList)) := by
    rw [hat.split, records_append, records_append, records_cons, records_cons]
    simp [records]
  rw [hadd, hrecs, hall]
  refine (Represents.refl _).append ?_
  refine (hpart.append (Represents.refl (records post t))).of_perm ?_
  rw [append_assoc]
  exact perm_append_comm.append_left _

/-- **A clean run keeps the records**: its list stands for the rules that were added. -/
theorem represents_foldl_addRule {rules : List Rule} (t : Traffic) :
    ∀ {list : List Rule}, AddsClean list rules →
      Represents (records (rules.foldl addRule list) t) (records (list ++ rules) t) := by
  induction rules with
  | nil => intro list _; simpa using Represents.refl _
  | cons new_rule rest ih =>
    intro list hclean
    obtain ⟨hstep, hrest⟩ := hclean
    have hone := (represents_addRule hstep t).append (Represents.refl (records rest t))
    rw [← records_append, ← records_append, append_assoc, singleton_append] at hone
    exact (ih hrest).trans hone

/-! ### The answer -/

theorem blocked_iff_of_no_overtakes {recs : List RuleMatch}
    (hno : ∀ a ∈ recs, ∀ b ∈ recs, ¬ Overtakes a b) :
    Blocked recs ↔ ∃ b ∈ recs, b.blockAction = true ∧ ∀ m ∈ recs, rank m ≤ rank b := by
  constructor
  · rintro ⟨xs, b, ys, rfl, hblock, htop, _⟩
    exact ⟨b, by simp, hblock, htop⟩
  · rintro ⟨b, hb, hblock, htop⟩
    obtain ⟨xs, ys, rfl⟩ := append_of_mem hb
    exact ⟨xs, b, ys, rfl, hblock, htop, fun m hm => hno m (by simp [hm]) b hb⟩

theorem Represents.exists_top_iff {recs all : List RuleMatch} (h : Represents recs all) :
    (∃ b ∈ recs, b.blockAction = true ∧ ∀ m ∈ recs, rank m ≤ rank b) ↔
      ∃ b ∈ all, b.blockAction = true ∧ ∀ m ∈ all, rank m ≤ rank b := by
  constructor
  · rintro ⟨b, hb, hblock, htop⟩
    refine ⟨b, h.sound b hb, hblock, fun m hm => ?_⟩
    obtain ⟨o, ho, hmo, _⟩ := h.covers m hm
    exact hmo.trans (htop o ho)
  · rintro ⟨b, hb, hblock, htop⟩
    obtain ⟨o, ho, hbo, hact⟩ := h.covers b hb
    exact ⟨o, ho, hact.trans hblock, fun m hm => (htop m (h.sound m hm)).trans hbo⟩

/-- **The answer without the order**: a rule of the greatest rank blocks. -/
theorem blockTraffic_addRules_iff {rules rules' : List Rule} (hclean : AddsClean [] rules')
    (hperm : rules'.Perm rules) (htie : NoProtocolTie rules) (t : Traffic) :
    blockTraffic (addRules rules') t = true ↔
      ∃ b ∈ records rules t, b.blockAction = true ∧ ∀ m ∈ records rules t, rank m ≤ rank b := by
  have hrep : Represents (records (addRules rules') t) (records rules t) :=
    (represents_foldl_addRule t hclean).of_perm (hperm.filterMap _)
  rw [blockTraffic_iff, blocked_iff_of_no_overtakes, hrep.exists_top_iff]
  exact fun a ha b hb => htie t a (hrep.sound a ha) b (hrep.sound b hb)

/-! ### The comparison -/

theorem isBetterMatch_iff {a b : RuleMatch} : isBetterMatch a b = true ↔
    rank b < rank a ∨ rank a = rank b ∧
      (a.blockAction = true ∧ b.blockAction = false ∨ b.byProtocol < a.byProtocol) := by
  rcases lt_trichotomy (rank a) (rank b) with hlt | heq | hgt
  · rw [isBetterMatch_ranked.below hlt]
    simp [hlt.not_gt, hlt.ne]
  · rw [isBetterMatch_of_rank_eq heq]
    simp [heq]
  · simp [isBetterMatch_ranked.above hgt, hgt]

theorem both_better_iff {a b : RuleMatch} :
    isBetterMatch a b = true ∧ isBetterMatch b a = true ↔ Overtakes a b ∨ Overtakes b a := by
  rw [isBetterMatch_iff, isBetterMatch_iff]
  constructor
  · rintro ⟨hlt | ⟨heq, hab⟩, hlt' | ⟨_, hba⟩⟩
    · exact absurd hlt hlt'.not_gt
    · exact absurd hlt (by simp_all)
    · exact absurd hlt' (by simp_all)
    · rcases hab with ⟨ha, hb⟩ | hab
      · refine .inr ⟨heq.symm, hb, ha, ?_⟩
        simpa [ha, hb] using hba
      · refine .inl ⟨heq, ?_⟩
        rcases hba with ⟨hb, ha⟩ | hba
        · exact ⟨ha, hb, hab⟩
        · omega
  · rintro (⟨heq, ha, hb, hlt⟩ | ⟨heq, hb, ha, hlt⟩)
    · exact ⟨.inr ⟨heq, .inr hlt⟩, .inr ⟨heq.symm, .inl ⟨hb, ha⟩⟩⟩
    · exact ⟨.inr ⟨heq.symm, .inl ⟨ha, hb⟩⟩, .inr ⟨heq, .inr hlt⟩⟩

theorem isBetterMatch_trans {a b c : RuleMatch} (hno : ¬ Overtakes a b) (hno' : ¬ Overtakes b c)
    (hab : isBetterMatch a b = true) (hbc : isBetterMatch b c = true) :
    isBetterMatch a c = true := by
  rw [isBetterMatch_iff] at hab hbc ⊢
  rcases hab with hab | ⟨hrank, hab⟩
  · rcases hbc with hbc | ⟨hrank', _⟩
    · exact .inl (hbc.trans hab)
    · exact .inl (hrank' ▸ hab)
  rcases hbc with hbc | ⟨hrank', hbc⟩
  · exact .inl (hrank ▸ hbc)
  · refine .inr ⟨hrank.trans hrank', ?_⟩
    rcases hab with ⟨ha, hb⟩ | hab
    · rcases hbc with ⟨hb', _⟩ | hbc
      · simp [hb] at hb'
      · left
        refine ⟨ha, ?_⟩
        by_contra hc
        exact hno' ⟨hrank', hb, by simpa using hc, hbc⟩
    · rcases hbc with ⟨hb, hc⟩ | hbc
      · left
        refine ⟨?_, hc⟩
        by_contra ha
        exact hno ⟨hrank, by simpa using ha, hb, hab⟩
      · exact .inr (hbc.trans hab)

/-! ### Order independence -/

/-- **When the order does not matter.**  Where no fold hides a range and no record
overtakes another, it does not; and where some record overtakes another, the
comparison is not an order. -/
theorem orderFree_of_clean (rules : List Rule) :
    (NoHiding rules ∧ NoProtocolTie rules → OrderFree rules) ∧
      (OrderFree rules → NoProtocolTie rules) := by
  constructor
  · rintro ⟨hclean, htie⟩
    have hiff : ∀ rules', rules'.Perm rules → ∀ t, blockTraffic (addRules rules') t = true ↔
        ∃ b ∈ records rules t, b.blockAction = true ∧
          ∀ m ∈ records rules t, rank m ≤ rank b :=
      fun rules' hperm t => blockTraffic_addRules_iff (hclean rules' hperm) hperm htie t
    constructor
    · intro rules' hperm t
      rw [Bool.eq_iff_iff, hiff rules' hperm t, hiff rules (List.Perm.refl _) t]
    · intro t a ha b hb hab
      by_contra hba
      rcases both_better_iff.mp ⟨hab, by simpa using hba⟩ with h | h
      · exact htie t a ha b hb h
      · exact htie t b hb a ha h
    · intro t a ha b hb c hc
      exact isBetterMatch_trans (htie t a ha b hb) (htie t b hb c hc)
    · intro t b hb hblock htop
      exact (hiff rules (List.Perm.refl _) t).mpr ⟨b, hb, hblock, htop⟩
  · intro hfree t a ha b hb hov
    obtain ⟨hab, hba⟩ := both_better_iff.mpr (.inl hov)
    rw [hfree.asymm t a ha b hb hab] at hba
    exact absurd hba (by simp)

/-- A rule that blocks every protocol and a rule that allows TCP: the one added last wins. -/
theorem addRules_order_matters :
    let block := { allocRule 0 with actionBlock := true }
    let allow := { allocRule 0 with protocol := 6 }
    let t : Traffic := ⟨1, 80, 6⟩
    blockTraffic (addRules [block, allow]) t = false ∧
      blockTraffic (addRules [allow, block]) t = true ∧
      ∃ a ∈ matchRule allow t, ∃ b ∈ matchRule block t,
        isBetterMatch a b = true ∧ isBetterMatch b a = true := by
  refine ⟨by decide, by decide, ?_⟩
  exact ⟨_, rfl, _, rfl, by decide, by decide⟩

end Sandboxie.NetFw
