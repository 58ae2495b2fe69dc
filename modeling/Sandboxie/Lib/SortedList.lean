import Mathlib.Algebra.Order.Ring.Int
import Mathlib.Data.List.Pairwise
import Mathlib.Order.Basic

/-!
# Sorted lists

Lists whose entries stand in the order of their keys, as loops over a linked list keep them: a
new entry is put before the first one with a greater key, and `overlay` also changes or removes
the entry that has the key already.  A run of `overlay` over entries with different keys changes
each key by its own entry (`lookup_foldl_overlay`).
-/

namespace SortedList

open List Option

variable {α κ : Type} [LinearOrder κ] (key : α → κ)

def Ascending (l : List α) : Prop := l.Pairwise fun a b => key a < key b

def lookup (k : κ) (l : List α) : Option α := l.find? fun a => key a = k

/-- A new entry goes before the first one with a greater key. -/
def insertBefore (a : α) : List α → List α
  | [] => [a]
  | b :: rest => if key a < key b then a :: b :: rest else b :: insertBefore a rest

/-- The same, but a new entry with the greatest key goes to the end at once. -/
def insertSorted (a : α) (l : List α) : List α :=
  match l.getLast? with
  | some last => if key last < key a then l ++ [a] else insertBefore key a l
  | none => insertBefore key a l

/-- A walk to the place of a key: what is found there is changed or removed, else a new entry
may be put there. -/
def overlay (k : κ) (found : α → Option α) (new : Option α) : List α → List α
  | [] => new.toList
  | b :: rest =>
    if k < key b then new.toList ++ b :: rest
    else if key b = k then (found b).toList ++ rest
    else b :: overlay k found new rest

/-- A new entry goes to its place, or is dropped when its key is there; one with the greatest key
goes to the end at once. -/
def insertUnique (a : α) (l : List α) : List α :=
  match l.getLast? with
  | some last => if key last < key a then l ++ [a] else overlay key (key a) some (some a) l
  | none => overlay key (key a) some (some a) l

variable {key}

theorem eq_of_key_eq {γ δ : Type} {ckey : γ → δ} {l : List γ}
    (h : l.Pairwise fun c d => ckey c ≠ ckey d) {c d : γ} (hc : c ∈ l) (hd : d ∈ l)
    (heq : ckey c = ckey d) : c = d := by
  by_contra hne
  have hsymm : Std.Symm fun c d : γ => ckey c ≠ ckey d := ⟨fun _ _ hcd => hcd.symm⟩
  exact @List.Pairwise.forall _ _ _ hsymm h c hc d hd hne heq

theorem lookup_cons_pos {k : κ} {b : α} {rest : List α} (h : key b = k) :
    lookup key k (b :: rest) = some b := find?_cons_of_pos (decide_eq_true h)

theorem lookup_cons_neg {k : κ} {b : α} {rest : List α} (h : key b ≠ k) :
    lookup key k (b :: rest) = lookup key k rest :=
  find?_cons_of_neg (by rw [decide_eq_true_eq]; exact h)

variable {l : List α}

theorem lookup_eq_none {k : κ} : lookup key k l = none ↔ ∀ a ∈ l, key a ≠ k := by
  rw [lookup, find?_eq_none]
  simp only [decide_eq_true_eq, ne_eq]

theorem lookup_some {k : κ} {a : α} (h : lookup key k l = some a) :
    a ∈ l ∧ key a = k := by
  have hkey := find?_some h
  exact ⟨mem_of_find?_eq_some h, of_decide_eq_true hkey⟩

theorem lookup_eq_some {k : κ} {l : List α} {a : α} (h : Ascending key l) :
    lookup key k l = some a ↔ a ∈ l ∧ key a = k := by
  refine ⟨lookup_some, ?_⟩
  rintro ⟨ha, rfl⟩
  cases hb : lookup key (key a) l with
  | none => exact absurd rfl (lookup_eq_none.mp hb a ha)
  | some b =>
    obtain ⟨hmem, hkey⟩ := lookup_some hb
    have hdistinct : l.Pairwise fun a b => key a ≠ key b := h.imp fun hlt => ne_of_lt hlt
    rw [eq_of_key_eq hdistinct hmem ha hkey]

/-! ### A walk -/

section Walk

variable {k : κ} {found : α → Option α} {new : Option α}

theorem mem_overlay {a : α} : ∀ {l : List α}, a ∈ overlay key k found new l →
    a ∈ l ∨ new = some a ∨ ∃ b ∈ l, key b = k ∧ found b = some a := by
  intro l
  induction l with
  | nil =>
    intro h
    exact .inr (.inl (mem_toList.mp h))
  | cons b rest ih =>
    intro h
    rw [overlay] at h
    split at h
    · rcases mem_append.mp h with h | h
      · exact .inr (.inl (mem_toList.mp h))
      · exact .inl h
    split at h
    next hkey =>
      rcases mem_append.mp h with h | h
      · exact .inr (.inr ⟨b, mem_cons_self, hkey, mem_toList.mp h⟩)
      · exact .inl (mem_cons_of_mem b h)
    next hkey =>
      rcases mem_cons.mp h with rfl | h
      · exact .inl mem_cons_self
      · rcases ih h with h | h | ⟨c, hc, hfound⟩
        · exact .inl (mem_cons_of_mem b h)
        · exact .inr (.inl h)
        · exact .inr (.inr ⟨c, mem_cons_of_mem b hc, hfound⟩)

variable (hfound : ∀ a b, found a = some b → key a = k → key b = k)
  (hnew : ∀ b, new = some b → key b = k)

include hfound hnew in
theorem ascending_overlay {l : List α} (h : Ascending key l) :
    Ascending key (overlay key k found new l) := by
  induction l with
  | nil => cases new with
    | none => exact List.Pairwise.nil
    | some a => exact pairwise_singleton _ a
  | cons b rest ih =>
    obtain ⟨hb, hrest⟩ := pairwise_cons.mp h
    rw [overlay]
    split
    next hlt =>
      cases hcase : new with
      | none => exact h
      | some a =>
        have ha : key a = k := hnew a hcase
        refine pairwise_cons.mpr ⟨fun c hc => ?_, h⟩
        rw [ha]
        rcases mem_cons.mp hc with rfl | hc
        · exact hlt
        · exact hlt.trans (hb c hc)
    next hge =>
      split
      next hkey =>
        cases hcase : found b with
        | none => exact hrest
        | some a =>
          refine pairwise_cons.mpr ⟨fun c hc => ?_, hrest⟩
          rw [hfound b a hcase hkey, ← hkey]
          exact hb c hc
      next hkey =>
        have hlt : key b < k := lt_of_le_of_ne (not_lt.mp hge) hkey
        refine pairwise_cons.mpr ⟨fun c hc => ?_, ih hrest⟩
        rcases mem_overlay hc with hc | hc | ⟨d, hd, hkey', hc⟩
        · exact hb c hc
        · rw [hnew c hc]
          exact hlt
        · rw [hfound d c hc hkey']
          exact hlt

include hfound hnew in
theorem lookup_overlay {l : List α} (h : Ascending key l) (k' : κ) :
    lookup key k' (overlay key k found new l) =
      if k' = k then (lookup key k l).elim new found else lookup key k' l := by
  have hself : ∀ {a : Option α}, (∀ b, a = some b → key b = k) → ∀ rest : List α,
      (∀ c ∈ rest, key c ≠ k) → ∀ k', lookup key k' (a.toList ++ rest) =
        if k' = k then a else lookup key k' rest := by
    intro a ha rest hrest k'
    cases a with
    | none =>
      by_cases hk : k' = k
      · rw [if_pos hk, hk]
        exact lookup_eq_none.mpr hrest
      · rw [if_neg hk]
        rfl
    | some b =>
      have hkey := ha b rfl
      by_cases hk : k' = k
      · rw [if_pos hk, hk]
        exact lookup_cons_pos hkey
      · rw [if_neg hk]
        exact lookup_cons_neg (hkey ▸ Ne.symm hk)
  induction l with
  | nil =>
    have hnil := hself hnew [] (fun c hc => absurd hc not_mem_nil) k'
    rw [append_nil] at hnil
    exact hnil
  | cons b rest ih =>
    obtain ⟨hb, hrest⟩ := pairwise_cons.mp h
    rw [overlay]
    split
    next hlt =>
      have hall : ∀ c ∈ b :: rest, key c ≠ k := by
        intro c hc
        rcases mem_cons.mp hc with rfl | hc
        · exact ne_of_gt hlt
        · exact ne_of_gt (hlt.trans (hb c hc))
      rw [hself hnew _ hall, lookup_eq_none.mpr hall, elim_none]
    next hge =>
      split
      next hkey =>
        have hall : ∀ c ∈ rest, key c ≠ k := fun c hc => hkey ▸ ne_of_gt (hb c hc)
        rw [hself (fun a ha => hfound b a ha hkey) _ hall, lookup_cons_pos hkey, elim_some]
        by_cases hk : k' = k
        · rw [if_pos hk, if_pos hk]
        · rw [if_neg hk, if_neg hk, lookup_cons_neg (hkey ▸ Ne.symm hk)]
      next hkey =>
        rw [lookup_cons_neg hkey]
        by_cases hk' : key b = k'
        · have hne : ¬ k' = k := fun heq => hkey (hk'.trans heq)
          rw [if_neg hne, lookup_cons_pos hk', lookup_cons_pos hk']
        · rw [lookup_cons_neg hk', lookup_cons_neg hk']
          exact ih hrest

end Walk

theorem overlay_some_none (k : κ) (l : List α) : overlay key k some none l = l := by
  induction l with
  | nil => rfl
  | cons b rest ih =>
    rw [overlay, ih]
    split
    · rfl
    · split <;> rfl

/-! ### Insertion -/

theorem insertBefore_eq_overlay {a : α} (hnone : ∀ b ∈ l, key b ≠ key a) :
    insertBefore key a l = overlay key (key a) some (some a) l := by
  induction l with
  | nil => rfl
  | cons b rest ih =>
    have hb : key b ≠ key a := hnone b mem_cons_self
    rw [insertBefore, overlay, if_neg hb, ih fun c hc => hnone c (mem_cons_of_mem b hc)]
    rfl

theorem perm_insertBefore (a : α) (l : List α) : (insertBefore key a l).Perm (a :: l) := by
  induction l with
  | nil => exact List.Perm.refl _
  | cons b rest ih =>
    rw [insertBefore]
    split
    · exact List.Perm.refl _
    · exact (ih.cons b).trans (List.Perm.swap a b rest)

theorem length_insertBefore (a : α) (l : List α) :
    (insertBefore key a l).length = l.length + 1 := (perm_insertBefore a l).length_eq

theorem pairwise_insertBefore (a : α) (h : l.Pairwise fun b c => key b ≤ key c) :
    (insertBefore key a l).Pairwise fun b c => key b ≤ key c := by
  induction l with
  | nil => exact pairwise_singleton _ _
  | cons b rest ih =>
    obtain ⟨hb, hrest⟩ := pairwise_cons.mp h
    rw [insertBefore]
    split
    next hlt =>
      refine pairwise_cons.mpr ⟨forall_mem_cons.mpr ⟨hlt.le, fun c hc => ?_⟩, h⟩
      exact hlt.le.trans (hb c hc)
    next hge =>
      refine pairwise_cons.mpr ⟨fun c hc => ?_, ih hrest⟩
      rcases mem_cons.mp ((perm_insertBefore a rest).mem_iff.mp hc) with rfl | hc
      · exact not_lt.mp hge
      · exact hb c hc

theorem overlay_of_greatest {k : κ} {found : α → Option α} {new : Option α}
    (h : ∀ b ∈ l, key b < k) : overlay key k found new l = l ++ new.toList := by
  induction l with
  | nil => rfl
  | cons b rest ih =>
    have hb := h b mem_cons_self
    rw [overlay, if_neg (not_lt_of_gt hb), if_neg (ne_of_lt hb),
      ih fun c hc => h c (mem_cons_of_mem b hc), cons_append]

theorem le_getLast (h : Ascending key l) {last : α} (hlast : l.getLast? = some last) :
    ∀ b ∈ l, key b ≤ key last := by
  obtain ⟨front, rfl⟩ := getLast?_eq_some_iff.mp hlast
  intro b hb
  rcases mem_append.mp hb with hb | hb
  · exact ((pairwise_append.mp h).2.2 b hb last (mem_singleton_self _)).le
  · rw [mem_singleton.mp hb]

theorem insertSorted_eq_overlay {a : α} (h : Ascending key l) (hnone : ∀ b ∈ l, key b ≠ key a) :
    insertSorted key a l = overlay key (key a) some (some a) l := by
  unfold insertSorted
  split
  next last hlast =>
    split
    next hlt =>
      rw [overlay_of_greatest fun b hb => (le_getLast h hlast b hb).trans_lt hlt]
      rfl
    next => exact insertBefore_eq_overlay hnone
  next => exact insertBefore_eq_overlay hnone

theorem insertUnique_eq_overlay {a : α} (h : Ascending key l) :
    insertUnique key a l = overlay key (key a) some (some a) l := by
  unfold insertUnique
  split
  next last hlast =>
    split
    next hlt =>
      rw [overlay_of_greatest fun b hb => (le_getLast h hlast b hb).trans_lt hlt]
      rfl
    next => rfl
  next => rfl

theorem ascending_insertUnique {a : α} (h : Ascending key l) :
    Ascending key (insertUnique key a l) := by
  rw [insertUnique_eq_overlay h]
  refine ascending_overlay (fun b c hbc hb => ?_) (fun b hb => ?_) h
  · rw [← Option.some.inj hbc]
    exact hb
  · rw [← Option.some.inj hb]

theorem exists_key_insertUnique {a : α} (h : Ascending key l) (k : κ) :
    (∃ b ∈ insertUnique key a l, key b = k) ↔ key a = k ∨ ∃ b ∈ l, key b = k := by
  have hin : ∀ {l : List α}, (∃ b ∈ l, key b = k) ↔ lookup key k l ≠ none := by
    intro l
    rw [ne_eq, lookup_eq_none]
    simp only [ne_eq, not_forall, not_not, exists_prop]
  have hlookup := @lookup_overlay α κ _ key (key a) some (some a)
    (fun b c hbc hb => by rw [← Option.some.inj hbc]; exact hb)
    (fun b hb => by rw [← Option.some.inj hb]) l h k
  rw [hin, hin, insertUnique_eq_overlay h, hlookup]
  by_cases hk : k = key a
  · rw [if_pos hk]
    refine iff_of_true ?_ (.inl hk.symm)
    cases lookup key (key a) l with
    | none => exact some_ne_none a
    | some b => exact some_ne_none b
  · rw [if_neg hk]
    exact (or_iff_right fun heq => hk heq.symm).symm

/-! ### A run -/

section Run

variable {γ : Type} {ckey : γ → κ} {found : γ → α → Option α} {new : γ → Option α}
  (hfound : ∀ c a b, found c a = some b → key a = ckey c → key b = ckey c)
  (hnew : ∀ c b, new c = some b → key b = ckey c)

include hfound hnew

theorem ascending_foldl_overlay (cs : List γ) {l : List α} (h : Ascending key l) :
    Ascending key (cs.foldl (fun l c => overlay key (ckey c) (found c) (new c) l) l) := by
  induction cs generalizing l with
  | nil => exact h
  | cons c cs ih => exact ih (ascending_overlay (hfound c) (hnew c) h)

theorem lookup_foldl_overlay (k : κ) : ∀ (cs : List γ) {l : List α}, Ascending key l →
    (cs.Pairwise fun c d => ckey c ≠ ckey d) →
      lookup key k (cs.foldl (fun l c => overlay key (ckey c) (found c) (new c) l) l) =
        match cs.find? fun c => ckey c = k with
        | some c => (lookup key k l).elim (new c) (found c)
        | none => lookup key k l := by
  intro cs
  induction cs with
  | nil => exact fun _ _ => rfl
  | cons c cs ih =>
    intro l h hdistinct
    obtain ⟨hc, hcs⟩ := pairwise_cons.mp hdistinct
    have hstep := ascending_overlay (hfound c) (hnew c) h
    rw [foldl_cons, ih hstep hcs, lookup_overlay (hfound c) (hnew c) h]
    by_cases hk : ckey c = k
    · have hnone : (cs.find? fun d => ckey d = k) = none := by
        refine find?_eq_none.mpr fun d hd => ?_
        rw [decide_eq_true_eq, ← hk]
        exact (hc d hd).symm
      have hfirst : ((c :: cs).find? fun d => ckey d = k) = some c :=
        find?_cons_of_pos (decide_eq_true hk)
      rw [hnone, hfirst, if_pos hk.symm, hk]
    · have hskip : ((c :: cs).find? fun d => ckey d = k) = cs.find? fun d => ckey d = k :=
        find?_cons_of_neg (by rw [decide_eq_true_eq]; exact hk)
      rw [hskip, if_neg (Ne.symm hk)]

theorem mem_foldl_overlay {cs : List γ} {l : List α} (h : Ascending key l)
    (hdistinct : cs.Pairwise fun c d => ckey c ≠ ckey d) {a : α} :
    a ∈ cs.foldl (fun l c => overlay key (ckey c) (found c) (new c) l) l ↔
      (∃ c ∈ cs, (lookup key (ckey c) l).elim (new c) (found c) = some a) ∨
      a ∈ l ∧ ∀ c ∈ cs, ckey c ≠ key a := by
  have hlookup := lookup_foldl_overlay hfound hnew (key a) cs h hdistinct
  have hmem := lookup_eq_some (a := a) (k := key a) (ascending_foldl_overlay hfound hnew cs h)
  rw [hlookup] at hmem
  have hkey : ∀ c, (lookup key (ckey c) l).elim (new c) (found c) = some a →
      key a = ckey c := by
    intro c hc
    cases hb : lookup key (ckey c) l with
    | none =>
      rw [hb] at hc
      exact hnew c a hc
    | some b =>
      rw [hb] at hc
      exact hfound c b a hc (lookup_some hb).2
  constructor
  · intro ha
    have ha := hmem.mpr ⟨ha, rfl⟩
    cases hfind : cs.find? fun c => ckey c = key a with
    | none =>
      rw [hfind] at ha
      refine .inr ⟨(lookup_some ha).1, fun c hc heq => ?_⟩
      exact find?_eq_none.mp hfind c hc (decide_eq_true heq)
    | some c =>
      rw [hfind] at ha
      have hfirst := find?_some hfind
      have hc : ckey c = key a := of_decide_eq_true hfirst
      refine .inl ⟨c, mem_of_find?_eq_some hfind, ?_⟩
      rw [hc]
      exact ha
  · intro ha
    refine (hmem.mp ?_).1
    rcases ha with ⟨c, hc, ha⟩ | ⟨ha, hnone⟩
    · have hac := hkey c ha
      cases hfind : cs.find? fun c => ckey c = key a with
      | none => exact absurd (decide_eq_true hac.symm) (find?_eq_none.mp hfind c hc)
      | some d =>
        have hfirst := find?_some hfind
        have hd : ckey d = key a := of_decide_eq_true hfirst
        rw [eq_of_key_eq hdistinct (mem_of_find?_eq_some hfind) hc (hd.trans hac), hac]
        exact ha
    · have hfind : (cs.find? fun c => ckey c = key a) = none :=
        find?_eq_none.mpr fun c hc => by rw [decide_eq_true_eq]; exact hnone c hc
      rw [hfind]
      exact (lookup_eq_some h).mpr ⟨ha, rfl⟩

theorem foldl_eq_foldl_overlay {step : List α → γ → List α}
    (hstep : ∀ l c, Ascending key l → (∀ b ∈ l, key b ≠ ckey c) →
      step l c = overlay key (ckey c) (found c) (new c) l) :
    ∀ (cs : List γ) {l : List α}, Ascending key l →
      (cs.Pairwise fun c d => ckey c ≠ ckey d) → (∀ c ∈ cs, ∀ b ∈ l, key b ≠ ckey c) →
        cs.foldl step l = cs.foldl (fun l c => overlay key (ckey c) (found c) (new c) l) l := by
  intro cs
  induction cs with
  | nil => exact fun _ _ _ => rfl
  | cons c cs ih =>
    intro l h hdistinct hfresh
    obtain ⟨hc, hcs⟩ := pairwise_cons.mp hdistinct
    have hl := hfresh c mem_cons_self
    rw [foldl_cons, foldl_cons, hstep l c h hl]
    refine ih (ascending_overlay (hfound c) (hnew c) h) hcs fun d hd b hb => ?_
    rcases mem_overlay hb with hb | hb | ⟨a, -, hkey, hb⟩
    · exact hfresh d (mem_cons_of_mem c hd) b hb
    · rw [hnew c b hb]
      exact hc d hd
    · rw [hfound c a b hb hkey]
      exact hc d hd

end Run

/-- **A run that leaves out an entry whose key is there** is sorted, and has of each key the entry
that comes first. -/
theorem mem_foldl_keep (as : List α) :
    Ascending key (as.foldl (fun l a => overlay key (key a) some (some a) l) []) ∧
      ∀ a, a ∈ as.foldl (fun l a => overlay key (key a) some (some a) l) [] ↔
        (as.find? fun b => key b = key a) = some a := by
  have hfound : ∀ a b c : α, some b = some c → key b = key a → key c = key a := by
    intro a b c hbc hb
    rw [← Option.some.inj hbc]
    exact hb
  have hnew : ∀ a b : α, some a = some b → key b = key a := by
    intro a b hab
    rw [Option.some.inj hab]
  have hlookup : ∀ (k : κ) (as : List α) {l : List α}, Ascending key l →
      lookup key k (as.foldl (fun l a => overlay key (key a) some (some a) l) l) =
        (lookup key k l).or (as.find? fun b => key b = k) := by
    intro k as
    induction as with
    | nil => exact fun _ => or_none.symm
    | cons a as ih =>
      intro l h
      rw [foldl_cons, ih (ascending_overlay (hfound a) (hnew a) h),
        lookup_overlay (hfound a) (hnew a) h]
      by_cases hk : k = key a
      · have hfirst : ((a :: as).find? fun b => key b = k) = some a :=
          find?_cons_of_pos (decide_eq_true hk.symm)
        rw [if_pos hk, hfirst, ← hk]
        cases lookup key k l <;> rfl
      · have hskip : ((a :: as).find? fun b => key b = k) = as.find? fun b => key b = k :=
          find?_cons_of_neg (by rw [decide_eq_true_eq]; exact Ne.symm hk)
        rw [if_neg hk, hskip]
  have hsorted := @ascending_foldl_overlay α κ _ key α key (fun _ => some) some hfound hnew as []
    List.Pairwise.nil
  refine ⟨hsorted, fun a => ?_⟩
  have hmem := @lookup_eq_some α κ _ key (key a) _ a hsorted
  rw [hlookup (key a) as List.Pairwise.nil] at hmem
  exact ⟨fun ha => hmem.mpr ⟨ha, rfl⟩, fun ha => (hmem.mp ha).1⟩

theorem mem_foldl_insert {γ : Type} {ckey : γ → κ} {skip : γ → Bool} {make : γ → α}
    {step : List α → γ → List α} (hkey : ∀ c, key (make c) = ckey c)
    (hstep : ∀ l c, Ascending key l → (∀ b ∈ l, key b ≠ ckey c) →
      step l c = if skip c then l else overlay key (ckey c) some (some (make c)) l)
    {cs : List γ} (hdistinct : cs.Pairwise fun c d => ckey c ≠ ckey d) :
    Ascending key (cs.foldl step []) ∧
      ∀ a, a ∈ cs.foldl step [] ↔ ∃ c ∈ cs, skip c = false ∧ make c = a := by
  have hfound : ∀ (c : γ) (a b : α), some a = some b → key a = ckey c → key b = ckey c := by
    rintro c a b hab ha
    rw [← Option.some.inj hab]
    exact ha
  have hnew : ∀ (c : γ) (b : α), (if skip c then none else some (make c)) = some b →
      key b = ckey c := by
    intro c b hb
    split at hb
    · exact absurd hb (fun h => by cases h)
    · rw [← Option.some.inj hb]
      exact hkey c
  have hnil : Ascending key ([] : List α) := List.Pairwise.nil
  have hstep' : ∀ l c, Ascending key l → (∀ b ∈ l, key b ≠ ckey c) →
      step l c = overlay key (ckey c) some (if skip c then none else some (make c)) l := by
    intro l c h hfresh
    rw [hstep l c h hfresh]
    split
    · exact (overlay_some_none _ _).symm
    · rfl
  have hrun := foldl_eq_foldl_overlay hfound hnew hstep' cs hnil hdistinct
    (fun _ _ b hb => absurd hb not_mem_nil)
  rw [hrun]
  refine ⟨ascending_foldl_overlay hfound hnew cs hnil, fun a => ?_⟩
  rw [mem_foldl_overlay hfound hnew hnil hdistinct]
  have hlookup : ∀ k, lookup key k ([] : List α) = none := fun _ => rfl
  simp only [hlookup, elim_none, not_mem_nil, false_and, or_false]
  refine exists_congr fun c => and_congr_right fun _ => ?_
  cases skip c with
  | true => exact ⟨fun h => (by cases h), fun h => absurd h.1 Bool.noConfusion⟩
  | false => exact ⟨fun h => ⟨rfl, Option.some.inj h⟩, fun h => congrArg some h.2⟩

end SortedList
