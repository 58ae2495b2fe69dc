import Sandboxie.Common.NetFwParse

/-!
# What the numbers of a rule are

`_wntoi` copies a number into a buffer and does not end it.  The number is read right if it ends
within what is copied: if a character that is not a digit is copied with it.
-/

namespace Sandboxie.NetFw

open StrUtil RangeMap List

/-! ### Reading a number -/

variable {l : List WChar}

theorem wtoiDigits_append (r : List WChar) : ∀ {k n : Nat},
    wtoiDigits l k = some n → wtoiDigits (l ++ r) k = some n := by
  induction l with
  | nil => exact fun h => nomatch h
  | cons c l ih =>
    intro k n h
    rw [cons_append, wtoiDigits]
    rw [wtoiDigits] at h
    split_ifs at h ⊢
    · exact ih h
    · exact h

theorem wtoiDigits_none {r : List WChar} (hr : ∀ c ∈ r, isDigit c = true) : ∀ {k : Nat},
    wtoiDigits l k = none → wtoiDigits (l ++ r) k = none := by
  induction l with
  | nil =>
    intro k _
    rw [nil_append]
    clear * - hr
    induction r generalizing k with
    | nil => rfl
    | cons c r ih =>
      rw [wtoiDigits, if_pos (hr c mem_cons_self)]
      exact ih fun c' hc' => hr c' (mem_cons_of_mem _ hc')
  | cons c l ih =>
    intro k h
    rw [cons_append, wtoiDigits]
    rw [wtoiDigits] at h
    split_ifs at h ⊢
    exact ih h

theorem dropWhile_append_of_ne {p : WChar → Bool} (h : l.dropWhile p ≠ [])
    (r : List WChar) : (l ++ r).dropWhile p = l.dropWhile p ++ r := by
  rw [dropWhile_append, if_neg (by simpa using h)]

theorem wtoi_append (r : List WChar) {n : Nat} (h : wtoi l = some n) :
    wtoi (l ++ r) = some n := by
  rw [wtoi] at h ⊢
  have hne : l.dropWhile isSpace ≠ [] := by
    intro hnil
    rw [hnil] at h
    exact nomatch h
  rw [dropWhile_append_of_ne hne]
  generalize l.dropWhile isSpace = l' at h hne
  cases l' with
  | nil => exact absurd rfl hne
  | cons c l' =>
    rw [cons_append, wtoiSign]
    rw [wtoiSign] at h
    split_ifs at h ⊢ with hdash hplus
    · obtain ⟨m, hm, rfl⟩ := Option.map_eq_some_iff.mp h
      rw [wtoiDigits_append r hm, Option.map_some]
    · exact wtoiDigits_append r h
    · exact wtoiDigits_append r h

theorem wtoi_none {r : List WChar} (hr : ∀ c ∈ r, c = '9'.toNat) (h : wtoi l = none) :
    wtoi (l ++ r) = none := by
  have hdigits : ∀ c ∈ r, isDigit c = true := by
    intro c hc
    rw [hr c hc]
    rfl
  rw [wtoi] at h ⊢
  by_cases hne : l.dropWhile isSpace = []
  · rw [dropWhile_append, if_pos (by rw [hne]; rfl)]
    cases r with
    | nil => rfl
    | cons c r =>
      obtain rfl := hr c mem_cons_self
      rw [dropWhile_cons_of_neg (by decide)]
      exact wtoiDigits_none (l := []) hdigits rfl
  · rw [dropWhile_append_of_ne hne]
    generalize l.dropWhile isSpace = l' at h hne
    cases l' with
    | nil => exact absurd rfl hne
    | cons c l' =>
      rw [cons_append, wtoiSign]
      rw [wtoiSign] at h
      split_ifs at h ⊢ with hdash hplus
      · rw [Option.map_eq_none_iff] at h
        rw [wtoiDigits_none hdigits h, Option.map_none]
      · exact wtoiDigits_none hdigits h
      · exact wtoiDigits_none (l := c :: l') hdigits h

def decimal (digits : List WChar) : Nat :=
  digits.foldl (fun n c => n * 10 + (c - '0'.toNat)) 0

/-- **A well-formed port number:** digits for a `USHORT`, with white space around them. -/
def Number (s : List WChar) (n : Nat) : Prop :=
  ∃ before digits after, s = before ++ (digits ++ after) ∧ (∀ c ∈ before, isBlank c = true) ∧
    (∀ c ∈ after, isBlank c = true) ∧ digits ≠ [] ∧ (∀ c ∈ digits, isDigit c = true) ∧
    decimal digits = n ∧ n < 2 ^ 16

theorem wtoiDigits_stop {c : WChar} (hc : isDigit c = false) (r : List WChar) :
    ∀ {digits : List WChar} {k : Nat}, (∀ c ∈ digits, isDigit c = true) →
      wtoiDigits (digits ++ c :: r) (k % 2 ^ 32) =
        some (digits.foldl (fun n c => n * 10 + (c - '0'.toNat)) k % 2 ^ 32) := by
  intro digits
  induction digits with
  | nil =>
    intro k _
    rw [nil_append, wtoiDigits, hc]
    rfl
  | cons d digits ih =>
    intro k hdigits
    rw [cons_append, wtoiDigits, if_pos (hdigits d mem_cons_self), foldl_cons]
    have hmod : (k % 2 ^ 32 * 10 + (d - '0'.toNat)) % 2 ^ 32 =
        (k * 10 + (d - '0'.toNat)) % 2 ^ 32 := by omega
    rw [hmod]
    exact ih fun c' hc' => hdigits c' (mem_cons_of_mem _ hc')

theorem isSpace_of_isBlank {c : WChar} (h : isBlank c = true) : isSpace c = true := by
  simp only [isBlank, Bool.or_eq_true, beq_iff_eq] at h
  rcases h with ((rfl | rfl) | rfl) | rfl <;> rfl

theorem isDigit_of_isBlank {c : WChar} (h : isBlank c = true) : isDigit c = false := by
  simp only [isBlank, Bool.or_eq_true, beq_iff_eq] at h
  rcases h with ((rfl | rfl) | rfl) | rfl <;> rfl

theorem dropWhile_blank {before digits : List WChar} (hbefore : ∀ c ∈ before, isBlank c = true)
    (hne : digits ≠ []) (hdigits : ∀ c ∈ digits, isDigit c = true) (r : List WChar) :
    (before ++ (digits ++ r)).dropWhile isSpace = digits ++ r := by
  have hnil : before.dropWhile isSpace = [] :=
    dropWhile_eq_nil_iff.mpr fun c hc => isSpace_of_isBlank (hbefore c hc)
  rw [dropWhile_append, hnil]
  obtain ⟨d, digits, rfl⟩ := exists_cons_of_ne_nil hne
  have hd := hdigits d mem_cons_self
  have hspace : isSpace d = false := by
    rw [isDigit, Bool.and_eq_true, decide_eq_true_eq] at hd
    have hge : 48 ≤ d := hd.1
    rw [Bool.eq_false_iff]
    intro h
    rw [isSpace, Bool.or_eq_true, Bool.and_eq_true, beq_iff_eq, decide_eq_true_eq,
      decide_eq_true_eq] at h
    rcases h with rfl | ⟨-, h⟩
    · exact absurd hge (by decide)
    · exact absurd (le_trans hge h) (by decide)
  rw [cons_append, dropWhile_cons_of_neg (by rw [hspace]; exact Bool.false_ne_true)]
  rfl

theorem wtoiSign_digits {digits : List WChar} (hne : digits ≠ [])
    (hdigits : ∀ c ∈ digits, isDigit c = true) (r : List WChar) :
    wtoiSign (digits ++ r) = wtoiDigits (digits ++ r) 0 := by
  obtain ⟨d, digits, rfl⟩ := exists_cons_of_ne_nil hne
  have hd := hdigits d mem_cons_self
  have hdash : d ≠ dash := by
    rintro rfl
    exact nomatch hd
  have hplus : d ≠ '+'.toNat := by
    rintro rfl
    exact nomatch hd
  rw [cons_append, wtoiSign, if_neg hdash, if_neg hplus]

/-- **A well-formed number is read right where it ends:** the text that is read goes on behind the
number with something else, or stops in the white space behind the digits. -/
theorem number_wtoi {s : List WChar} {b n : Nat} (hs : Number s b) (hl : wtoi l = some n)
    (h : l <+: s ∨ ∃ c r, l = s ++ c :: r ∧ isDigit c = false) : n = b := by
  obtain ⟨before, digits, after, rfl, hbefore, hafter, hne, hdigits, rfl, hlt⟩ := hs
  have hread : ∀ c r, isDigit c = false →
      wtoi (before ++ (digits ++ c :: r)) = some (decimal digits) := by
    intro c r hc
    rw [wtoi, dropWhile_blank hbefore hne hdigits, wtoiSign_digits hne hdigits]
    have h := wtoiDigits_stop hc r (k := 0) hdigits
    rw [Nat.zero_mod] at h
    rw [h]
    exact congrArg some (Nat.mod_eq_of_lt (hlt.trans (by decide)))
  cases after with
  | cons c after =>
    have hc := isDigit_of_isBlank (hafter c mem_cons_self)
    rcases h with ⟨r, hr⟩ | ⟨c', r, rfl, -⟩
    · have hmore := wtoi_append r hl
      rw [hr, hread c after hc] at hmore
      exact (Option.some.inj hmore).symm
    · rw [append_assoc, append_assoc, cons_append, hread c _ hc] at hl
      exact (Option.some.inj hl).symm
  | nil =>
    rw [append_nil] at h
    rcases h with ⟨r, hr⟩ | ⟨c, r, rfl, hc⟩
    · -- the number does not end
      have hmore := wtoi_append r hl
      rw [hr, wtoi] at hmore
      have hdrop := dropWhile_blank hbefore hne hdigits []
      rw [append_nil] at hdrop
      have hsign := wtoiSign_digits hne hdigits []
      rw [append_nil] at hsign
      rw [hdrop, hsign] at hmore
      have hnone := wtoiDigits_none (l := []) (k := 0) hdigits rfl
      rw [nil_append, hmore] at hnone
      exact nomatch hnone
    · rw [append_assoc, hread c r hc] at hl
      exact (Option.some.inj hl).symm

/-! ### The copy -/

variable (t : CText)

/-- **A number that ends in what is copied of it,** and that fits the buffer. -/
structure Stops (p max : Nat) : Prop where
  inText : p + max ≤ t.chars.length + 1
  fits : max ≤ 12
  ends : (wtoi (slice t p max)).isSome = true

instance (p max : Nat) : Decidable (Stops t p max) :=
  decidable_of_iff (p + max ≤ t.chars.length + 1 ∧ max ≤ 12 ∧
    (wtoi (slice t p max)).isSome = true) ⟨fun h => ⟨h.1, h.2.1, h.2.2⟩, fun h => ⟨h.1, h.2, h.3⟩⟩

variable {t}

def nines : Tmp := ⟨List.replicate 12 '9'.toNat, rfl⟩

theorem Stops.wntoi {p max : Nat} (h : Stops t p max) :
    ∃ n, wtoi (slice t p max) = some n ∧ ∀ tmp, wntoi t tmp p max = .ok n := by
  obtain ⟨n, hn⟩ := Option.isSome_iff_exists.mp h.ends
  refine ⟨n, hn, fun tmp => ?_⟩
  rw [NetFw.wntoi, if_neg (Nat.not_lt.mpr h.inText), if_neg (Nat.not_lt.mpr h.fits),
    wtoi_append _ hn]

theorem stops_of_wntoi {p max n : Nat} (h : wntoi t nines p max = .ok n) : Stops t p max := by
  rw [wntoi] at h
  split_ifs at h with hin hfits
  refine ⟨Nat.not_lt.mp hin, Nat.not_lt.mp hfits, ?_⟩
  cases hread : wtoi (slice t p max) with
  | some m => rfl
  | none =>
    rw [wtoi_none (fun c hc => ?_) hread] at h
    · exact nomatch h
    · exact eq_of_mem_replicate (mem_of_mem_drop hc)

end Sandboxie.NetFw
