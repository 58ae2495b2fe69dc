import Sandboxie.Dll.CanonizePath

/-!
# The path of a link's target

`runText_iff` says on which targets `File_CanonizePath` ends, and `canonizePath_iff` when its path
is the one that is meant, in which each component of the target is applied to those of the absolute
path.
-/

namespace Sandboxie.CanonizePath

open Text List Option

/-! ### What is meant -/

def IsName (c : List WChar) : Prop := c ≠ [] ∧ ∀ x ∈ c, isSep x = false

/-- An absolute path: backslashes in front of its components, and maybe at its end. -/
structure AbsPath where
  components : List (List WChar)
  names : ∀ c ∈ components, IsName c
  trailing : Nat

def pathText (components : List (List WChar)) : List WChar :=
  components.flatMap fun c => backslash :: c

def AbsPath.text (path : AbsPath) : List WChar :=
  pathText path.components ++ List.replicate path.trailing backslash

def applyComponent (components : List (List WChar)) (c : List WChar) : List (List WChar) :=
  if c = [] ∨ c = [dot] then components
  else if c = [dot, dot] then components.dropLast
  else components ++ [c]

/-- The path that is meant. -/
def applied (path : AbsPath) (rel : List WChar) : List WChar :=
  pathText ((rel.splitOnP isSep).foldl applyComponent path.components)

/-! ### Targets that come to an end -/

/-- A component of a target with what is behind it: a backslash, or a null behind dots. -/
structure Piece where
  content : List WChar
  sep : WChar
  free : ∀ x ∈ content, isSep x = false
  ends : sep = backslash ∨ (sep = 0 ∧ (content = [dot, dot] ∨ content = [dot]))

theorem Piece.isSep_sep (p : Piece) : isSep p.sep = true := by
  rcases p.ends with h | ⟨h, -⟩ <;> rw [h] <;> rfl

def targetText (pieces : List Piece) : List WChar := pieces.flatMap fun p => p.content ++ [p.sep]

theorem targetText_cons (p : Piece) (pieces : List Piece) :
    targetText (p :: pieces) = p.content ++ p.sep :: targetText pieces := by
  rw [targetText, flatMap_cons, append_assoc, singleton_append, targetText]

def runComponents : List WChar → List (List WChar) → Option (List WChar)
  | t, [] => some t
  | t, c :: cs => (applyText t c).bind fun t => runComponents t cs

/-- **On which targets the loop ends**: on those that are made of components with something behind
each. -/
theorem runText_iff {t rel result : List WChar} :
    (∃ fuel, runText fuel t rel = some result) ↔
      ∃ pieces, rel = targetText pieces ∧
        runComponents t (pieces.map Piece.content) = some result := by
  constructor
  · rintro ⟨fuel, h⟩
    induction fuel generalizing t rel with
    | zero => cases h
    | succ fuel ih =>
      rw [runText] at h
      split at h
      case isFalse hne =>
        exact ⟨[], not_not.mp hne, h⟩
      case isTrue hne =>
        obtain ⟨⟨t', more⟩, hturn, hrun⟩ := bind_eq_some_iff.mp h
        obtain hall | ⟨c, s, more', rfl, hc, hs⟩ := exists_component rel
        · have hdrop : rel.dropWhile (fun x => !isSep x) = [] :=
            dropWhile_eq_nil_iff.mpr fun x hx => by rw [hall x hx]; rfl
          rw [turnText, hdrop] at hturn
          cases hturn
        · rw [turnText_component hc hs] at hturn
          split at hturn
          case isFalse => cases hturn
          case isTrue hends =>
            obtain ⟨t'', happly, heq⟩ := map_eq_some_iff.mp hturn
            cases heq
            obtain ⟨pieces, rfl, hcomponents⟩ := ih hrun
            have hnull : s = backslash ∨ s = 0 := by
              simpa only [isSep, Bool.or_eq_true, beq_iff_eq] using hs
            have hpiece : s = backslash ∨ (s = 0 ∧ (c = [dot, dot] ∨ c = [dot])) :=
              hends.elim .inl fun hdots => hnull.imp_right fun h0 => ⟨h0, hdots⟩
            refine ⟨⟨c, s, hc, hpiece⟩ :: pieces, ?_, ?_⟩
            · rw [targetText_cons]
            · rw [map_cons, runComponents, happly]
              exact hcomponents
  · rintro ⟨pieces, rfl, h⟩
    refine ⟨pieces.length + 1, ?_⟩
    induction pieces generalizing t with
    | nil => exact h
    | cons p pieces ih =>
      obtain ⟨t', happly, hrest⟩ := bind_eq_some_iff.mp h
      have hends : p.sep = backslash ∨ p.content = [dot, dot] ∨ p.content = [dot] :=
        p.ends.imp_right And.right
      rw [runText, targetText_cons, if_pos (by simp), turnText_component p.free p.isSep_sep,
        if_pos hends, happly]
      exact ih hrest

theorem splitOnP_targetText (pieces : List Piece) :
    (targetText pieces).splitOnP isSep = pieces.map Piece.content ++ [[]] := by
  induction pieces with
  | nil => rfl
  | cons p pieces ih =>
    rw [targetText_cons, splitOnP_append_cons_of_forall_mem p.free _ p.isSep_sep, ih]
    rfl

/-! ### When the path is the one that is meant -/

/-- The rest of the target applies to a path with a number of components: each pair of dots and
each name finds one, and in the end there is none left or the components are right, with no
backslash behind them.  `slash` says that an empty component left a backslash there; two dots take
it away instead of a component, and then the components are not `kept`. -/
def Applies : Nat → Bool → Bool → List (List WChar) → Prop
  | d, slash, kept, [] => d = 0 ∨ (slash = false ∧ kept = true)
  | d, slash, kept, c :: cs =>
    if c = [dot] then Applies d slash kept cs
    else if c = [dot, dot] then
      if slash = true then Applies d false false cs else d ≠ 0 ∧ Applies (d - 1) false kept cs
    else if c = [] then Applies d (decide (d ≠ 0)) kept cs
    else d ≠ 0 ∧ Applies (d + 1) false kept cs

/-- The text with its components and maybe a backslash behind them. -/
def slashText (cs : List (List WChar)) (slash : Bool) : List WChar :=
  pathText cs ++ if slash then [backslash] else []

theorem pathText_concat (cs : List (List WChar)) (c : List WChar) :
    pathText (cs ++ [c]) = pathText cs ++ backslash :: c := by
  simp [pathText]

theorem backslash_not_mem {c : List WChar} (h : ∀ x ∈ c, isSep x = false) : backslash ∉ c :=
  fun hmem => by cases h _ hmem

variable {cs : List (List WChar)}

theorem count_pathText (h : ∀ c ∈ cs, IsName c) :
    (pathText cs).count backslash = cs.length := by
  induction cs with
  | nil => rfl
  | cons c cs ih =>
    have hcs := ih fun c hc => h c (mem_cons_of_mem _ hc)
    have hnone := count_eq_zero.mpr (backslash_not_mem (h c mem_cons_self).2)
    rw [pathText, flatMap_cons, count_append, count_cons_self, hnone,
      length_cons]
    rw [pathText] at hcs
    omega

theorem count_slashText (h : ∀ c ∈ cs, IsName c) (slash : Bool) :
    (slashText cs slash).count backslash = cs.length + slash.toNat := by
  rw [slashText, count_append, count_pathText h]
  cases slash <;> rfl

theorem exists_concat (h : ∀ c ∈ cs, IsName c) (hne : cs ≠ []) :
    ∃ c, cs = cs.dropLast ++ [c] ∧ IsName c :=
  ⟨cs.getLast hne, (dropLast_append_getLast hne).symm, h _ (getLast_mem hne)⟩

theorem popText_slashText (h : ∀ c ∈ cs, IsName c) (hne : cs ≠ []) :
    popText (slashText cs false) = some (slashText cs.dropLast false) := by
  obtain ⟨c, hcs, hc⟩ := exists_concat h hne
  rw [hcs, dropLast_concat, slashText, slashText, pathText_concat]
  simp only [Bool.false_eq_true, if_false, append_nil]
  exact popText_append (backslash_not_mem hc.2)

theorem getLast?_pathText (h : ∀ c ∈ cs, IsName c) (hne : cs ≠ []) :
    ∃ x, (pathText cs).getLast? = some x ∧ isSep x = false := by
  obtain ⟨c, hcs, hc⟩ := exists_concat h hne
  rw [hcs, pathText_concat, getLast?_append_cons, getLast?_cons_of_ne_nil hc.1]
  exact ⟨c.getLast hc.1, getLast?_eq_some_getLast hc.1, hc.2 _ (getLast_mem hc.1)⟩

theorem withSeparator_slashText (h : ∀ c ∈ cs, IsName c) (hne : cs ≠ [])
    (slash : Bool) : withSeparator (slashText cs slash) = slashText cs true := by
  rw [slashText, slashText, withSeparator]
  cases slash with
  | true => exact if_neg fun hlast => hlast.2 getLast?_concat
  | false =>
    obtain ⟨x, hx, hsep⟩ := getLast?_pathText h hne
    have hlast : (pathText cs).getLast? ≠ some backslash := by
      rw [hx]
      rintro ⟨⟩
      cases hsep
    have htext : pathText cs ≠ [] := fun hnil => by rw [hnil] at hx; cases hx
    simp only [Bool.false_eq_true, if_false, append_nil]
    exact if_pos ⟨htext, hlast⟩

/-- The text does not begin with a backslash, as when a name follows with no component left. -/
def Unrooted (t : List WChar) : Prop := ∃ x more, t = x :: more ∧ x ≠ backslash

theorem not_unrooted_pathText (cs : List (List WChar)) : ¬Unrooted (pathText cs) := by
  rintro ⟨x, more, heq, hx⟩
  cases cs with
  | nil => cases heq
  | cons c cs =>
    exact hx (List.cons.inj heq).1.symm

theorem exists_of_popText {t t' : List WChar} (h : popText t = some t') :
    ∃ n, t = t' ++ backslash :: n := by
  induction t using List.reverseRecOn with
  | nil => cases h
  | append_singleton t c ih =>
    by_cases hc : c = backslash
    · subst hc
      rw [popText_append not_mem_nil] at h
      cases h
      exact ⟨[], rfl⟩
    · rw [popText_concat hc] at h
      obtain ⟨n, rfl⟩ := ih h
      exact ⟨n ++ [c], by rw [append_assoc, cons_append]⟩

theorem Unrooted.applyText {t t' c : List WChar} (h : Unrooted t)
    (happly : applyText t c = some t') : Unrooted t' := by
  obtain ⟨x, more, rfl, hx⟩ := h
  rw [CanonizePath.applyText] at happly
  split at happly
  · obtain ⟨n, heq⟩ := exists_of_popText happly
    cases t' with
    | nil => exact absurd (List.cons.inj heq).1 hx
    | cons y t' => exact ⟨y, t', rfl, (List.cons.inj heq).1 ▸ hx⟩
  · split at happly
    · cases happly
      exact ⟨x, more, rfl, hx⟩
    · cases happly
      rw [withSeparator]
      split
      · exact ⟨x, _, rfl, hx⟩
      · exact ⟨x, _, rfl, hx⟩

theorem Unrooted.runComponents {result : List WChar} :
    ∀ {t : List WChar}, Unrooted t → runComponents t cs = some result → Unrooted result := by
  induction cs with
  | nil =>
    intro t h hrun
    cases hrun
    exact h
  | cons c cs ih =>
    intro t h hrun
    obtain ⟨t', happly, hrest⟩ := bind_eq_some_iff.mp hrun
    exact ih (h.applyText happly) hrest

/-- The components of the text, and those that are meant: the same, or less. -/
structure Kept (cs ds : List (List WChar)) (slash kept : Bool) : Prop where
  names : ∀ c ∈ cs, IsName c
  names' : ∀ c ∈ ds, IsName c
  slash : slash = true → cs ≠ []
  same : kept = true → cs = ds
  less : kept = false → ds.length < cs.length ∨ (cs = [] ∧ ds = [])

variable {slash kept : Bool} {cs ds : List (List WChar)}

theorem Kept.le (h : Kept cs ds slash kept) :
    ds.length ≤ cs.length := by
  cases kept with
  | true => exact Nat.le_of_eq (congrArg List.length (h.same rfl).symm)
  | false =>
    rcases h.less rfl with hlt | ⟨rfl, rfl⟩
    · exact Nat.le_of_lt hlt
    · exact Nat.le_refl _

theorem Kept.eq_iff (h : Kept cs ds slash kept) :
    slashText cs slash = pathText ds ↔ cs.length = 0 ∨ (slash = false ∧ kept = true) := by
  constructor
  · intro heq
    have hcount := congrArg (List.count backslash) heq
    rw [count_slashText h.names, count_pathText h.names'] at hcount
    have hle := h.le
    cases slash with
    | true =>
      rw [Bool.toNat_true] at hcount
      omega
    | false =>
      cases kept with
      | true => exact .inr ⟨rfl, rfl⟩
      | false =>
        rcases h.less rfl with hlt | ⟨rfl, -⟩
        · omega
        · exact .inl rfl
  · rintro (hnil | ⟨rfl, rfl⟩)
    · have hcs := length_eq_zero_iff.mp hnil
      have hds : ds = [] := length_eq_zero_iff.mp (Nat.le_zero.mp (hnil ▸ h.le))
      subst hcs hds
      cases slash with
      | true => exact absurd rfl (h.slash rfl)
      | false => rfl
    · rw [h.same rfl, slashText, if_neg Bool.false_ne_true, append_nil]

theorem names_dropLast (h : ∀ c ∈ cs, IsName c) :
    ∀ c ∈ cs.dropLast, IsName c := fun c hc => h c (dropLast_subset cs hc)

theorem Kept.unslash {kept : Bool} (h : Kept cs ds true kept) :
    Kept cs ds.dropLast false false := by
  refine ⟨h.names, names_dropLast h.names', fun heq => (nomatch heq),
    fun heq => (nomatch heq), fun _ => .inl ?_⟩
  have hpos : 0 < cs.length := length_pos_iff.mpr (h.slash rfl)
  have hle := h.le
  rw [length_dropLast]
  omega

theorem Kept.pop (h : Kept cs ds slash kept) :
    Kept cs.dropLast ds.dropLast false kept := by
  refine ⟨names_dropLast h.names, names_dropLast h.names', fun heq => (nomatch heq),
    fun heq => by rw [h.same heq], fun heq => ?_⟩
  rcases h.less heq with hlt | ⟨rfl, rfl⟩
  · rw [← length_eq_zero_iff, ← length_eq_zero_iff, length_dropLast,
      length_dropLast]
    omega
  · exact .inr ⟨rfl, rfl⟩

theorem Kept.push {c : List WChar} (h : Kept cs ds slash kept) (hne : cs ≠ []) (hc : IsName c) :
    Kept (cs ++ [c]) (ds ++ [c]) false kept := by
  refine ⟨forall_mem_append.mpr ⟨h.names, by simpa using hc⟩,
    forall_mem_append.mpr ⟨h.names', by simpa using hc⟩, fun heq => (nomatch heq),
    fun heq => by rw [h.same heq], fun heq => ?_⟩
  rcases h.less heq with hlt | ⟨hnil, -⟩
  · exact .inl (by rw [length_append, length_append]; omega)
  · exact absurd hnil hne

theorem Kept.slashed (h : Kept cs ds slash kept) :
    Kept cs ds (decide (cs.length ≠ 0)) kept :=
  ⟨h.names, h.names', fun heq hnil => of_decide_eq_true heq (by rw [hnil]; rfl), h.same, h.less⟩

/-- **A step for each component of the target.** -/
theorem runComponents_iff {contents : List (List WChar)}
    (hfree : ∀ c ∈ contents, ∀ x ∈ c, isSep x = false) :
    ∀ {cs ds : List (List WChar)} {slash kept : Bool}, Kept cs ds slash kept →
      (runComponents (slashText cs slash) contents =
          some (pathText (contents.foldl applyComponent ds)) ↔
        Applies cs.length slash kept contents) := by
  induction contents with
  | nil =>
    intro cs ds slash kept h
    rw [runComponents, foldl_nil, Option.some.injEq, Applies]
    exact h.eq_iff
  | cons c contents ih =>
    intro cs ds slash kept h
    have ih := @ih fun c hc => hfree c (mem_cons_of_mem _ hc)
    rw [runComponents, foldl_cons, Applies, applyText]
    by_cases hdot : c = [dot]
    · subst hdot
      rw [if_pos rfl, if_neg (by decide), if_pos rfl, bind_some]
      exact ih h
    by_cases hdots : c = [dot, dot]
    · subst hdots
      rw [if_neg hdot, if_pos rfl, if_pos rfl]
      show ((popText (slashText cs slash)).bind fun t => runComponents t contents) =
        some (pathText (contents.foldl applyComponent ds.dropLast)) ↔ _
      cases slash with
      | true =>
        have hpop : popText (slashText cs true) = some (slashText cs false) := by
          rw [slashText, slashText, if_pos rfl, if_neg Bool.false_ne_true, append_nil]
          exact popText_append not_mem_nil
        rw [hpop, bind_some, if_pos rfl]
        exact ih h.unslash
      | false =>
        rw [if_neg Bool.false_ne_true]
        by_cases hnil : cs = []
        · subst hnil
          exact iff_of_false (fun heq => by cases heq) fun hd => hd.1 rfl
        · rw [popText_slashText h.names hnil, bind_some, ih h.pop, length_dropLast]
          exact (and_iff_right (fun hd => hnil (length_eq_zero_iff.mp hd))).symm
    · rw [if_neg hdot, if_neg hdots, if_neg hdots, if_neg hdot, bind_some]
      by_cases hempty : c = []
      · subst hempty
        rw [if_pos rfl, append_nil]
        show runComponents (withSeparator (slashText cs slash)) contents =
          some (pathText (contents.foldl applyComponent ds)) ↔ _
        by_cases hnil : cs = []
        · subst hnil
          have hslash : slash = false := by
            cases slash with
            | true => exact absurd rfl (h.slash rfl)
            | false => rfl
          subst hslash
          exact ih h.slashed
        · rw [withSeparator_slashText h.names hnil, ← ih h.slashed]
          have hd : decide (cs.length ≠ 0) = true :=
            decide_eq_true fun hd => hnil (length_eq_zero_iff.mp hd)
          rw [hd]
      · rw [if_neg hempty]
        have hname : IsName c := ⟨hempty, hfree c mem_cons_self⟩
        have happly : applyComponent ds c = ds ++ [c] := by
          rw [applyComponent, if_neg (not_or.mpr ⟨hempty, hdot⟩), if_neg hdots]
        rw [happly]
        by_cases hnil : cs = []
        · subst hnil
          have hslash : slash = false := by
            cases slash with
            | true => exact absurd rfl (h.slash rfl)
            | false => rfl
          subst hslash
          refine iff_of_false (fun hrun => ?_) fun hd => hd.1 rfl
          obtain ⟨x, more, rfl⟩ := exists_cons_of_ne_nil hempty
          have hunrooted : Unrooted (withSeparator (slashText [] false) ++ x :: more) :=
            ⟨x, more, rfl, fun hx => by cases hx ▸ hname.2 x mem_cons_self⟩
          exact not_unrooted_pathText _ (hunrooted.runComponents hrun)
        · have htext : withSeparator (slashText cs slash) ++ c = slashText (cs ++ [c]) false := by
            rw [withSeparator_slashText h.names hnil, slashText, slashText, if_pos rfl,
              if_neg Bool.false_ne_true, pathText_concat, append_nil, append_assoc,
              singleton_append]
          rw [htext, ih (h.push hnil hname), length_append, length_singleton]
          exact (and_iff_right (fun hd => hnil (length_eq_zero_iff.mp hd))).symm

/-! ### The whole function -/

variable {path : AbsPath} {rel : List WChar}

theorem stripLen_text (path : AbsPath) : ∀ k, k ≤ path.trailing →
    stripLen path.text ((pathText path.components).length + k) =
      if path.components = [] then none else some (pathText path.components).length := by
  intro k
  induction k with
  | zero =>
    intro _
    by_cases hnil : path.components = []
    · rw [hnil, if_pos rfl]
      rfl
    obtain ⟨x, hx, hsep⟩ := getLast?_pathText path.names hnil
    have hpos : 0 < (pathText path.components).length := length_pos_iff.mpr fun hnil => by
      rw [hnil] at hx
      cases hx
    obtain ⟨n, hn⟩ := Nat.exists_eq_add_one.mpr hpos
    have hcell : path.text[n]? = some x := by
      rw [AbsPath.text, getElem?_append_left (by omega), ← hx, getLast?_eq_getElem?, hn,
        Nat.add_sub_cancel]
    have hne : x ≠ backslash := fun heq => by
      subst heq
      cases hsep
    rw [Nat.add_zero, hn, stripLen, hcell, bind_some, if_neg hne, if_neg hnil]
  | succ k ih =>
    intro hk
    have hcell : path.text[(pathText path.components).length + k]? = some backslash := by
      rw [AbsPath.text, getElem?_append_right (by omega), Nat.add_sub_cancel_left,
        getElem?_replicate_of_lt hk]
    rw [← Nat.add_assoc, stripLen, hcell, bind_some, if_pos rfl]
    exact ih (by omega)

theorem length_text (path : AbsPath) :
    path.text.length = (pathText path.components).length + path.trailing := by
  rw [AbsPath.text, length_append, length_replicate]

theorem zero_not_mem_pathText (h : ∀ c ∈ cs, IsName c) :
    0 ∉ pathText cs := by
  intro hmem
  obtain ⟨c, hc, hzero⟩ := mem_flatMap.mp hmem
  rcases mem_cons.mp hzero with heq | hzero
  · cases heq
  · cases (h c hc).2 0 hzero

theorem canonizePath_eq (garbage : Nat → WChar) (fuel : Nat) (h : path.components ≠ []) :
    canonizePath garbage fuel path.text rel = runText fuel (pathText path.components) rel := by
  have hstrip := stripLen_text path path.trailing (Nat.le_refl _)
  rw [if_neg h, ← length_text] at hstrip
  have htake : path.text.take (pathText path.components).length = pathText path.components :=
    take_left
  have hsize : ([] ++ (List.range ((pathText path.components).length + rel.length + 1)).map
      garbage).length = (pathText path.components).length + rel.length + 1 := by
    rw [nil_append, length_map, length_range]
  have hroom : ([] : List WChar).length + (pathText path.components).length <
      (pathText path.components).length + rel.length + 1 := by
    rw [length_nil]
    omega
  obtain ⟨buf, hbuf, hholds⟩ := write_text hsize hroom (zero_not_mem_pathText path.names)
  obtain ⟨buf', hbuf', hnull⟩ := bind_eq_some_iff.mp hbuf
  rw [nil_append, length_nil] at hbuf'
  rw [length_nil, Nat.zero_add] at hnull
  have hturned : Turned (pathText path.components).length rel (pathText path.components) buf 0 :=
    ⟨hholds, Nat.le_refl _, Nat.zero_le _⟩
  rw [canonizePath, hstrip, bind_some, htake, hbuf', bind_some, hnull,
    bind_some]
  exact loop_refines fuel hturned

theorem canonizePath_nil (garbage : Nat → WChar) (fuel : Nat) (h : path.components = []) :
    canonizePath garbage fuel path.text rel = none := by
  have hstrip := stripLen_text path path.trailing (Nat.le_refl _)
  rw [if_pos h, ← length_text] at hstrip
  rw [canonizePath, hstrip]
  rfl

/-- The target is made of components with something behind each that apply to the path. -/
def AppliesTo (path : AbsPath) (rel : List WChar) : Prop :=
  path.components ≠ [] ∧ ∃ pieces, rel = targetText pieces ∧
    Applies path.components.length false true (pieces.map Piece.content)

/-- **When the path is the one that is meant.** -/
theorem canonizePath_iff (path : AbsPath) (rel : List WChar) (garbage : Nat → WChar) :
    (∃ fuel, canonizePath garbage fuel path.text rel = some (applied path rel)) ↔
      AppliesTo path rel := by
  by_cases hnil : path.components = []
  · refine iff_of_false ?_ fun h => h.1 hnil
    rintro ⟨fuel, h⟩
    rw [canonizePath_nil garbage fuel hnil] at h
    cases h
  · have hkept : Kept path.components path.components false true :=
      ⟨path.names, path.names, fun heq => (nomatch heq), fun _ => rfl, fun heq => nomatch heq⟩
    have hstart : slashText path.components false = pathText path.components :=
      append_nil _
    have happlied : ∀ pieces : List Piece, applied path (targetText pieces) =
        pathText ((pieces.map Piece.content).foldl applyComponent path.components) := by
      intro pieces
      rw [applied, splitOnP_targetText, foldl_append]
      rfl
    have hstep : ∀ pieces : List Piece,
        runComponents (pathText path.components) (pieces.map Piece.content) =
            some (applied path (targetText pieces)) ↔
          Applies path.components.length false true (pieces.map Piece.content) := by
      intro pieces
      rw [happlied, ← hstart]
      refine runComponents_iff (fun c hc => ?_) hkept
      obtain ⟨p, -, rfl⟩ := mem_map.mp hc
      exact p.free
    simp only [canonizePath_eq garbage _ hnil]
    rw [runText_iff]
    constructor
    · rintro ⟨pieces, rfl, hrun⟩
      exact ⟨hnil, pieces, rfl, (hstep pieces).mp hrun⟩
    · rintro ⟨-, pieces, rfl, happlies⟩
      exact ⟨pieces, rfl, (hstep pieces).mpr happlies⟩

/-- The path with the one component `a`. -/
def pathA : AbsPath := ⟨[[97]], by simp [IsName, isSep, backslash], 0⟩

theorem canonizePath_b (fuel : Nat) : canonizePath (fun _ => 0) fuel pathA.text [98] = none := by
  cases fuel <;> rfl

/-- So the path that is meant does not come back. -/
theorem not_canonizePath_b :
    applied pathA [98] = [92, 97, 92, 98] ∧
      ¬∃ fuel, canonizePath (fun _ => 0) fuel pathA.text [98] = some (applied pathA [98]) := by
  refine ⟨by decide, ?_⟩
  rintro ⟨fuel, h⟩
  rw [canonizePath_b] at h
  cases h

end Sandboxie.CanonizePath
