import Mathlib.Algebra.Order.Ring.Int
import Mathlib.Data.List.Basic

/-!
# Forests of named nodes

The nodes of one level stand in order, each with a name, a label and the nodes below it.  Names
are compared through `fold`, and the first node with a name is the one that counts.  A path is
a list of names; the label of a path that leads nowhere is `dflt`.
-/

namespace Sandboxie

open List Option

/-- The nodes of one level: the first with what is below it, and those behind it. -/
inductive Forest (κ α : Type)
  | nil
  | node (key : κ) (label : α) (items next : Forest κ α)
deriving DecidableEq

namespace Forest

variable {κ κ' α : Type}

def append : Forest κ α → Forest κ α → Forest κ α
  | nil, u => u
  | node k a items next, u => node k a items (append next u)

def keys : Forest κ α → List κ
  | nil => []
  | node k _ _ next => k :: keys next

def All (P : κ → α → Prop) : Forest κ α → Prop
  | nil => True
  | node k a items next => P k a ∧ All P items ∧ All P next

theorem All.mono {P Q : κ → α → Prop} (h : ∀ k a, P k a → Q k a) :
    ∀ {t : Forest κ α}, t.All P → t.All Q
  | nil, _ => trivial
  | node k a _ _, ⟨hp, hitems, hnext⟩ => ⟨h k a hp, hitems.mono h, hnext.mono h⟩

theorem All.append {P : κ → α → Prop} {u : Forest κ α} (hu : u.All P) :
    ∀ {t : Forest κ α}, t.All P → (t.append u).All P
  | nil, _ => hu
  | node _ _ _ _, ⟨hp, hitems, hnext⟩ => ⟨hp, hitems, All.append hu hnext⟩

/-- The nodes with the labels, each with its path, which begins with `path`. -/
def nodes : Forest κ α → List κ → List (List κ × α)
  | nil, _ => []
  | node k a items next, path => (path ++ [k], a) :: nodes items (path ++ [k]) ++ nodes next path

theorem All.nodes {P : κ → α → Prop} {t : Forest κ α} {path : List κ} {e : List κ × α}
    (h : t.All P) (he : e ∈ t.nodes path) :
    (∃ k, P k e.2) ∧ ∀ k ∈ e.1, k ∈ path ∨ ∃ a, P k a := by
  induction t generalizing path with
  | nil => cases he
  | node k a items next ihItems ihNext =>
    obtain ⟨hp, hitems, hnext⟩ := h
    rw [Forest.nodes, cons_append, mem_cons, mem_append] at he
    obtain rfl | he | he := he
    · refine ⟨⟨k, hp⟩, fun k' hk' => ?_⟩
      obtain hk' | hk' := mem_append.mp hk'
      · exact .inl hk'
      · exact .inr ⟨a, mem_singleton.mp hk' ▸ hp⟩
    · obtain ⟨hlabel, hpath⟩ := ihItems hitems he
      refine ⟨hlabel, fun k' hk' => ?_⟩
      obtain hk' | hk' := hpath k' hk'
      · obtain hk' | hk' := mem_append.mp hk'
        · exact .inl hk'
        · exact .inr ⟨a, mem_singleton.mp hk' ▸ hp⟩
      · exact .inr hk'
    · exact ihNext hnext he

theorem All.key {P : κ → α → Prop} {k : κ} : ∀ {t : Forest κ α}, t.All P → k ∈ t.keys → ∃ a, P k a
  | node _ a _ _, ⟨hp, _, hnext⟩, hk => by
    obtain rfl | hk := mem_cons.mp hk
    · exact ⟨a, hp⟩
    · exact hnext.key hk

section Names

variable [DecidableEq κ'] (fold : κ → κ')

/-- The first node with a name: its label and what is below it. -/
def child : Forest κ α → κ → Option (α × Forest κ α)
  | nil, _ => none
  | node k a items next, x => if fold k = fold x then some (a, items) else child next x

def find : Forest κ α → List κ → Option (α × Forest κ α)
  | _, [] => none
  | t, x :: xs =>
    match t.child fold x with
    | none => none
    | some found => if xs = [] then some found else find found.2 xs

/-- The nodes of a path, of which the last one is changed. -/
def chain (dflt : α) (f : α → α) : List κ → Forest κ α
  | [] => nil
  | x :: xs => node x (if xs = [] then f dflt else dflt) (chain dflt f xs) nil

/-- The label at the end of a path is changed; nodes that are missing are added behind the
others. -/
def update (dflt : α) (f : α → α) : Forest κ α → List κ → Forest κ α
  | t, [] => t
  | nil, x :: xs => chain dflt f (x :: xs)
  | node k a items next, x :: xs =>
    if fold k = fold x then
      if xs = [] then node k (f a) items next
      else node k a (update dflt f items xs) next
    else node k a items (update dflt f next (x :: xs))

/-- What is below the end of a path is changed. -/
def mapItems (g : Forest κ α → Forest κ α) : Forest κ α → List κ → Forest κ α
  | t, [] => t
  | nil, _ => nil
  | node k a items next, x :: xs =>
    if fold k = fold x then node k a (if xs = [] then g items else mapItems g items xs) next
    else node k a items (mapItems g next (x :: xs))

def remove : Forest κ α → List κ → Forest κ α
  | t, [] => t
  | nil, _ => nil
  | node k a items next, x :: xs =>
    if fold k = fold x then
      if xs = [] then next else node k a (remove items xs) next
    else node k a items (remove next (x :: xs))

def label (dflt : α) (t : Forest κ α) (path : List κ) : α :=
  match t.find fold path with
  | none => dflt
  | some found => found.1

/-- No two nodes of a level have the same name. -/
def Apart : Forest κ α → Prop
  | nil => True
  | node k _ items next => (∀ x ∈ next.keys, fold x ≠ fold k) ∧ items.Apart ∧ next.Apart

variable {fold} {dflt : α}

@[simp]
theorem find_nil (path : List κ) : (nil : Forest κ α).find fold path = none := by
  cases path <;> rfl

@[simp]
theorem label_nil (path : List κ) : (nil : Forest κ α).label fold dflt path = dflt := by
  simp [label]

theorem label_cons (t : Forest κ α) (x : κ) (xs : List κ) :
    t.label fold dflt (x :: xs) = match t.child fold x with
      | none => dflt
      | some found => if xs = [] then found.1 else found.2.label fold dflt xs := by
  unfold label
  rw [find]
  cases t.child fold x with
  | none => rfl
  | some found =>
    by_cases hxs : xs = []
    · simp only [hxs, if_true]
    · simp only [hxs, if_false]

variable {t : Forest κ α}

theorem child_eq_none {x : κ} (h : ∀ k ∈ t.keys, fold k ≠ fold x) :
    t.child fold x = none := by
  induction t with
  | nil => rfl
  | node k a items next _ ih =>
    rw [child, if_neg (h k mem_cons_self)]
    exact ih fun k' hk' => h k' (mem_cons_of_mem k hk')

theorem child_congr (t : Forest κ α) {x y : κ} (h : fold x = fold y) :
    t.child fold x = t.child fold y := by
  induction t with
  | nil => rfl
  | node k a items next _ ih => simp only [child, h, ih]

variable {xs ys : List κ}

theorem find_cons (t : Forest κ α) (x : κ) (xs : List κ) :
    t.find fold (x :: xs) = (t.child fold x).bind fun found =>
      if xs = [] then some found else found.2.find fold xs := by
  rw [find]
  cases t.child fold x <;> rfl

theorem find_congr (t : Forest κ α) (h : xs.map fold = ys.map fold) :
    t.find fold xs = t.find fold ys := by
  induction xs generalizing t ys with
  | nil => rw [map_eq_nil_iff.mp h.symm]
  | cons x xs ih =>
    cases ys with
    | nil => cases h
    | cons y ys =>
      obtain ⟨hxy, hrest⟩ := List.cons.inj h
      have hnil : xs = [] ↔ ys = [] := by
        rw [← @map_eq_nil_iff _ _ fold xs, hrest, map_eq_nil_iff]
      rw [find_cons, find_cons, child_congr t hxy]
      simp only [hnil, ih _ hrest]

theorem label_congr (t : Forest κ α) (h : xs.map fold = ys.map fold) :
    t.label fold dflt xs = t.label fold dflt ys := by
  rw [label, label, find_congr t h]

variable {xs : List κ}

variable {t : Forest κ α} {found : α × Forest κ α}

theorem child_of_find {Q : Forest κ α → Prop}
    (hdown : ∀ {t : Forest κ α} {x : κ} {found : α × Forest κ α}, Q t →
      t.child fold x = some found → Q found.2)
    (h : Q t) (hfound : t.find fold xs = some found) :
    ∃ u x, Q u ∧ u.child fold x = some found := by
  induction xs generalizing t with
  | nil => cases hfound
  | cons x xs ih =>
    rw [find_cons] at hfound
    obtain ⟨next, hnext, hfound⟩ := bind_eq_some_iff.mp hfound
    by_cases hxs : xs = []
    · rw [if_pos hxs] at hfound
      exact ⟨t, x, h, hnext.trans hfound⟩
    · rw [if_neg hxs] at hfound
      exact ih (hdown h hnext) hfound

theorem find_append (hxs : xs ≠ []) (t : Forest κ α) (ys : List κ) :
    t.find fold (xs ++ ys) = (t.find fold xs).bind fun found =>
      if ys = [] then some found else found.2.find fold ys := by
  induction xs generalizing t with
  | nil => exact absurd rfl hxs
  | cons x xs ih =>
    rw [cons_append, find_cons, find_cons]
    cases t.child fold x with
    | none => rfl
    | some found =>
      by_cases hxs' : xs = []
      · subst hxs'
        rfl
      · simp only [bind_some, if_neg hxs', if_neg (append_ne_nil_of_left_ne_nil hxs' _)]
        exact ih hxs' found.2

theorem find_concat (hxs : xs ≠ []) (t : Forest κ α) (x : κ) :
    t.find fold (xs ++ [x]) = (t.find fold xs).bind fun found => found.2.child fold x := by
  simp [find_append hxs, find_cons]

theorem label_find {a : α} {items : Forest κ α}
    (h : t.find fold xs = some (a, items)) (ys : List κ) :
    t.label fold dflt (xs ++ ys) = if ys = [] then a else items.label fold dflt ys := by
  have hxs : xs ≠ [] := by
    rintro rfl
    cases h
  rw [label, find_append hxs, h, bind_some]
  by_cases hys : ys = []
  · rw [if_pos hys, if_pos hys]
  · rw [if_neg hys, if_neg hys, label]

theorem label_find_none (hxs : xs ≠ [])
    (h : t.find fold xs = none) (ys : List κ) : t.label fold dflt (xs ++ ys) = dflt := by
  rw [label, find_append hxs, h, bind_none]

/-! ### A change at the end of a path -/

@[simp]
theorem update_nil_path (f : α → α) (t : Forest κ α) : t.update fold dflt f [] = t := by
  cases t <;> rfl

theorem chain_cons (f : α → α) (x : κ) (xs : List κ) :
    chain dflt f (x :: xs) =
      node x (if xs = [] then f dflt else dflt) (nil.update fold dflt f xs) nil := by
  cases xs <;> rfl

theorem child_update (f : α → α) (t : Forest κ α) (x y : κ) (xs : List κ) :
    (t.update fold dflt f (x :: xs)).child fold y =
      if fold x = fold y then
        some (if xs = [] then (f ((t.child fold x).getD (dflt, nil)).1,
            ((t.child fold x).getD (dflt, nil)).2)
          else (((t.child fold x).getD (dflt, nil)).1,
            ((t.child fold x).getD (dflt, nil)).2.update fold dflt f xs))
      else t.child fold y := by
  induction t with
  | nil =>
    rw [update, @chain_cons _ _ _ _ fold]
    by_cases hxy : fold x = fold y
    · rw [if_pos hxy]
      by_cases hxs : xs = []
      · simp [hxs, child, hxy]
      · simp [hxs, child, hxy]
    · simp [child, hxy]
  | node k a items next _ ih =>
    by_cases hkx : fold k = fold x
    · have hchild : (node k a items next).child fold x = some (a, items) := if_pos hkx
      rw [hchild, update, if_pos hkx]
      have hky : fold k = fold y ↔ fold x = fold y := by rw [hkx]
      by_cases hxy : fold x = fold y
      · by_cases hxs : xs = []
        · simp [hxs, child, hky, hxy]
        · simp [hxs, child, hky, hxy]
      · by_cases hxs : xs = []
        · simp [hxs, child, hky, hxy]
        · simp [hxs, child, hky, hxy]
    · have hchild : (node k a items next).child fold x = next.child fold x := if_neg hkx
      rw [hchild, update, if_neg hkx, child]
      by_cases hky : fold k = fold y
      · have hxy : fold x ≠ fold y := fun h => hkx (hky.trans h.symm)
        rw [if_pos hky, if_neg hxy, child, if_pos hky]
      · rw [if_neg hky, ih, child, if_neg hky]

theorem label_update (f : α → α) (t : Forest κ α) (hxs : xs ≠ []) (ys : List κ) :
    (t.update fold dflt f xs).label fold dflt ys =
      if xs.map fold = ys.map fold then f (t.label fold dflt ys) else t.label fold dflt ys := by
  induction xs generalizing t ys with
  | nil => exact absurd rfl hxs
  | cons x xs ih =>
    cases ys with
    | nil => simp [label, find]
    | cons y ys =>
      rw [label_cons, child_update, label_cons]
      by_cases hxy : fold x = fold y
      · rw [if_pos hxy, ← child_congr t hxy]
        have hlabel : ∀ c : Option (α × Forest κ α),
            (match c with
              | none => dflt
              | some found => if ys = [] then found.1 else found.2.label fold dflt ys) =
            if ys = [] then (c.getD (dflt, nil)).1
              else (c.getD (dflt, nil)).2.label fold dflt ys := by
          intro c
          cases c <;> simp
        rw [hlabel]
        generalize (t.child fold x).getD (dflt, nil) = c
        have hmap : (x :: xs).map fold = (y :: ys).map fold ↔ xs.map fold = ys.map fold := by
          simp [hxy]
        simp only [hmap]
        by_cases hxs' : xs = []
        · subst hxs'
          by_cases hys : ys = []
          · simp [hys]
          · simp [hys]
        · rw [if_neg hxs']
          by_cases hys : ys = []
          · simp [hys, hxs']
          · simp only [if_neg hys]
            exact ih c.2 hxs' ys
      · rw [if_neg hxy, if_neg (by simp [hxy])]

theorem label_foldl_update {ε : Type} (path : ε → List κ) (f : ε → α → α) (es : List ε)
    (hes : ∀ e ∈ es, path e ≠ []) (t : Forest κ α) (ys : List κ) :
    (es.foldl (fun t e => t.update fold dflt (f e) (path e)) t).label fold dflt ys =
      (es.filter fun e => (path e).map fold = ys.map fold).foldl (fun a e => f e a)
        (t.label fold dflt ys) := by
  induction es generalizing t with
  | nil => rfl
  | cons e es ih =>
    rw [foldl_cons, ih (fun e' he' => hes e' (mem_cons_of_mem e he')),
      label_update (f e) t (hes e mem_cons_self), filter_cons]
    by_cases heq : (path e).map fold = ys.map fold
    · rw [if_pos heq, if_pos (by simpa using heq), foldl_cons]
    · rw [if_neg heq, if_neg (by simpa using heq)]

/-! ### What the operations keep -/

section Keep

variable {P : κ → α → Prop}

variable {t : Forest κ α} {path : List κ}

theorem All.update_label {f : α → α} (h : t.All P)
    (hnew : ∀ k ∈ path, P k dflt)
    (hf : ∀ k, P k (t.label fold dflt path) → P k (f (t.label fold dflt path))) :
    (t.update fold dflt f path).All P := by
  have hchain : ∀ xs : List κ, (∀ k ∈ xs, P k dflt) → (∀ k, P k dflt → P k (f dflt)) →
      (chain dflt f xs).All P := by
    intro xs
    induction xs with
    | nil => exact fun _ _ => trivial
    | cons x xs ih =>
      intro hxs hf
      have hx := hxs x mem_cons_self
      refine ⟨?_, ih (fun k hk => hxs k (mem_cons_of_mem x hk)) hf, trivial⟩
      split
      · exact hf x hx
      · exact hx
  induction t generalizing path with
  | nil =>
    cases path with
    | nil => trivial
    | cons x xs => exact hchain (x :: xs) hnew (by simpa using hf)
  | node k a items next ihItems ihNext =>
    cases path with
    | nil => exact h
    | cons x xs =>
      obtain ⟨hp, hitems, hnext⟩ := h
      rw [label_cons, Forest.child] at hf
      rw [Forest.update]
      by_cases hkx : fold k = fold x
      · simp only [if_pos hkx] at hf ⊢
        by_cases hxs : xs = []
        · simp only [if_pos hxs] at hf ⊢
          exact ⟨hf k hp, hitems, hnext⟩
        · simp only [if_neg hxs] at hf ⊢
          exact ⟨hp, ihItems hitems (fun k' hk' => hnew k' (mem_cons_of_mem x hk')) hf,
            hnext⟩
      · simp only [if_neg hkx] at hf ⊢
        rw [← label_cons] at hf
        exact ⟨hp, hitems, ihNext hnext hnew hf⟩

theorem All.update {f : α → α} (h : t.All P)
    (hnew : ∀ k ∈ path, P k dflt) (hf : ∀ k a, P k a → P k (f a)) :
    (t.update fold dflt f path).All P :=
  h.update_label hnew fun k => hf k _

theorem All.mapItems {g : Forest κ α → Forest κ α} (h : t.All P)
    (hg : ∀ u : Forest κ α, u.All P → (g u).All P) :
    (t.mapItems fold g path).All P := by
  induction t generalizing path with
  | nil => cases path <;> trivial
  | node k a items next ihItems ihNext =>
    cases path with
    | nil => exact h
    | cons x xs =>
      obtain ⟨hp, hitems, hnext⟩ := h
      rw [Forest.mapItems]
      split
      · refine ⟨hp, ?_, hnext⟩
        split
        · exact hg items hitems
        · exact ihItems hitems
      · exact ⟨hp, hitems, ihNext hnext⟩

theorem All.remove (h : t.All P) :
    (t.remove fold path).All P := by
  induction t generalizing path with
  | nil => cases path <;> trivial
  | node k a items next ihItems ihNext =>
    cases path with
    | nil => exact h
    | cons x xs =>
      obtain ⟨hp, hitems, hnext⟩ := h
      rw [Forest.remove]
      split
      · split
        · exact hnext
        · exact ⟨hp, ihItems hitems, hnext⟩
      · exact ⟨hp, hitems, ihNext hnext⟩

theorem All.child {x : κ} {found : α × Forest κ α} (h : t.All P)
    (hfound : t.child fold x = some found) : (∃ k, P k found.1) ∧ found.2.All P := by
  induction t with
  | nil => cases hfound
  | node k a items next _ ih =>
    rw [Forest.child] at hfound
    split at hfound
    · cases hfound
      exact ⟨⟨k, h.1⟩, h.2.1⟩
    · exact ih h.2.2 hfound

theorem All.find {found : α × Forest κ α} (h : t.All P)
    (hfound : t.find fold path = some found) : (∃ k, P k found.1) ∧ found.2.All P := by
  obtain ⟨u, x, hu, hchild⟩ := child_of_find (fun hu hchild => (hu.child hchild).2) h hfound
  exact hu.child hchild

end Keep

/-! ### Paths that an operation leaves alone -/

theorem label_remove (t : Forest κ α) {xs ys : List κ} (h : ¬xs.map fold <+: ys.map fold) :
    (t.remove fold xs).label fold dflt ys = t.label fold dflt ys := by
  induction t generalizing xs ys with
  | nil => cases xs <;> rfl
  | node k a items next ihItems ihNext =>
    cases xs with
    | nil => exact absurd nil_prefix h
    | cons x xs =>
      cases ys with
      | nil => simp [label, find]
      | cons y ys =>
        rw [Forest.remove]
        by_cases hkx : fold k = fold x
        · rw [if_pos hkx]
          by_cases hky : fold k = fold y
          · -- the path goes through the node, but not to the end
            have hxs : ¬xs.map fold <+: ys.map fold := by
              intro hpre
              apply h
              rw [map_cons, map_cons, ← hkx, ← hky]
              exact cons_prefix_cons.mpr ⟨rfl, hpre⟩
            have hne : xs ≠ [] := fun hnil => hxs (hnil ▸ nil_prefix)
            rw [if_neg hne, label_cons, label_cons, child, child, if_pos hky, if_pos hky]
            simp only [ihItems hxs]
          · split
            · rw [label_cons, label_cons, child, if_neg hky]
            · rw [label_cons, label_cons, child, child, if_neg hky, if_neg hky]
        · rw [if_neg hkx, label_cons, label_cons, child, child]
          by_cases hky : fold k = fold y
          · rw [if_pos hky, if_pos hky]
          · rw [if_neg hky, if_neg hky, ← label_cons, ← label_cons]
            exact ihNext h

theorem label_remove_self (hapart : t.Apart fold) (hxs : xs ≠ [])
    (h : xs.map fold <+: ys.map fold) : (t.remove fold xs).label fold dflt ys = dflt := by
  induction t generalizing xs ys with
  | nil => cases xs <;> simp [Forest.remove]
  | node k a items next ihItems ihNext =>
    obtain ⟨hnames, hitems, hnext⟩ := hapart
    cases xs with
    | nil => exact absurd rfl hxs
    | cons x xs =>
      cases ys with
      | nil => simp at h
      | cons y ys =>
        obtain ⟨hxy, hpre⟩ := cons_prefix_cons.mp h
        rw [Forest.remove]
        by_cases hkx : fold k = fold x
        · have hky : fold k = fold y := hkx.trans hxy
          rw [if_pos hkx]
          split
          · rw [label_cons, child_eq_none fun k' hk' hk'y => hnames k' hk' (hk'y.trans hky.symm)]
          · rename_i hne
            have hys : ys ≠ [] := by
              rintro rfl
              simp [hne] at hpre
            rw [label_cons, child, if_pos hky]
            simp only [if_neg hys]
            exact ihItems hitems hne hpre
        · have hky : fold k ≠ fold y := fun hky => hkx (hky.trans hxy.symm)
          rw [if_neg hkx, label_cons, child, if_neg hky, ← label_cons]
          exact ihNext hnext hxs h

theorem child_mapItems (g : Forest κ α → Forest κ α) (t : Forest κ α) (x y : κ) (xs : List κ) :
    (t.mapItems fold g (x :: xs)).child fold y =
      if fold x = fold y then
        (t.child fold x).map fun found =>
          (found.1, if xs = [] then g found.2 else found.2.mapItems fold g xs)
      else t.child fold y := by
  induction t with
  | nil => simp [mapItems, child]
  | node k a items next _ ih =>
    rw [mapItems]
    by_cases hkx : fold k = fold x
    · rw [if_pos hkx, child, child, child, if_pos hkx, hkx]
      split <;> rfl
    · rw [if_neg hkx, child, child, child, if_neg hkx]
      by_cases hky : fold k = fold y
      · rw [if_pos hky, if_pos hky, if_neg fun hxy => hkx (hky.trans hxy.symm)]
      · rw [if_neg hky, if_neg hky, ih]

theorem label_mapItems (g : Forest κ α → Forest κ α) (t : Forest κ α)
    (h : ¬(xs.map fold <+: ys.map fold ∧ xs.length < ys.length)) :
    (t.mapItems fold g xs).label fold dflt ys = t.label fold dflt ys := by
  induction xs generalizing t ys with
  | nil => cases t <;> rfl
  | cons x xs ih =>
    cases ys with
    | nil => simp [label, find]
    | cons y ys =>
      rw [label_cons, label_cons, child_mapItems]
      by_cases hxy : fold x = fold y
      · rw [if_pos hxy, child_congr t hxy]
        cases t.child fold y with
        | none => rfl
        | some found =>
          by_cases hys : ys = []
          · simp [hys]
          have hrest : ¬(xs.map fold <+: ys.map fold ∧ xs.length < ys.length) :=
            fun ⟨hpre, hlt⟩ => h ⟨cons_prefix_cons.mpr ⟨hxy, hpre⟩, Nat.succ_lt_succ hlt⟩
          have hne : xs ≠ [] := by
            rintro rfl
            exact hrest ⟨ nil_prefix, length_pos_of_ne_nil hys⟩
          simp only [map_some, if_neg hys, if_neg hne]
          exact ih found.2 hrest
      · rw [if_neg hxy]

/-! ### The nodes that are found -/

theorem find_none_below (hxs : xs ≠ [])
    (hpre : xs.map fold <+: ys.map fold) (h : t.find fold xs = none) :
    t.find fold ys = none := by
  have htake : xs.map fold = (ys.take xs.length).map fold := by
    simpa [map_take] using prefix_iff_eq_take.mp hpre
  have hne : ys.take xs.length ≠ [] := fun hnil =>
    hxs (map_eq_nil_iff.mp (htake.trans (by rw [hnil, map_nil])))
  rw [← take_append_drop xs.length ys, find_append hne, ← find_congr t htake, h,
    bind_none]

theorem find_update (f : α → α) (t : Forest κ α) (h : ¬ys.map fold <+: xs.map fold) :
    (t.update fold dflt f xs).find fold ys = t.find fold ys := by
  induction ys generalizing t xs with
  | nil => exact absurd nil_prefix h
  | cons y ys ih =>
    cases xs with
    | nil => rw [update_nil_path]
    | cons x xs =>
      rw [find_cons, find_cons, child_update]
      by_cases hxy : fold x = fold y
      · have hrest : ¬ys.map fold <+: xs.map fold := fun hpre =>
          h (cons_prefix_cons.mpr ⟨hxy.symm, hpre⟩)
        have hys : ys ≠ [] := by
          rintro rfl
          exact hrest nil_prefix
        rw [if_pos hxy, ← child_congr t hxy]
        have hfound : ∀ c : Option (α × Forest κ α),
            (c.getD (dflt, nil)).2.find fold ys = c.bind fun found => found.2.find fold ys := by
          intro c
          cases c <;> simp
        simp only [bind_some, if_neg hys]
        rw [← hfound]
        split
        · rfl
        · exact ih _ hrest
      · rw [if_neg hxy]

theorem find_of_update {f : α → α}
    (h : (t.update fold dflt f xs).find fold ys = none) : t.find fold ys = none := by
  induction ys generalizing t xs with
  | nil => rfl
  | cons y ys ih =>
    cases xs with
    | nil => rwa [update_nil_path] at h
    | cons x xs =>
      rw [find_cons, child_update] at h
      rw [find_cons]
      by_cases hxy : fold x = fold y
      · rw [if_pos hxy, bind_some] at h
        rw [← child_congr t hxy]
        by_cases hys : ys = []
        · rw [if_pos hys] at h
          cases h
        rw [if_neg hys] at h
        cases hchild : t.child fold x with
        | none => rfl
        | some found =>
          rw [hchild, getD_some] at h
          rw [bind_some, if_neg hys]
          by_cases hxs : xs = []
          · rwa [if_pos hxs] at h
          · rw [if_neg hxs] at h
            exact ih h
      · rwa [if_neg hxy] at h

theorem find_update_self (f : α → α) (t : Forest κ α) (hxs : xs ≠ [])
    (h : xs.map fold = ys.map fold) : (t.update fold dflt f xs).find fold ys ≠ none := by
  induction xs generalizing t ys with
  | nil => exact absurd rfl hxs
  | cons x xs ih =>
    cases ys with
    | nil => cases h
    | cons y ys =>
      obtain ⟨hxy, hrest⟩ := List.cons.inj h
      rw [find_cons, child_update, if_pos hxy, bind_some]
      by_cases hys : ys = []
      · rw [if_pos hys]
        exact some_ne_none _
      · have hnil : xs ≠ [] := by
          rintro rfl
          exact hys (map_eq_nil_iff.mp hrest.symm)
        rw [if_neg hys, if_neg hnil]
        exact ih _ hnil hrest

theorem nodes_update {f : α → α} (h : t.find fold xs = none)
    (path : List κ) : t.nodes path ⊆ (t.update fold dflt f xs).nodes path := by
  induction t generalizing xs path with
  | nil => exact nil_subset _
  | node k a items next ihItems ihNext =>
    cases xs with
    | nil => exact List.Subset.refl _
    | cons x xs =>
      rw [find_cons, child] at h
      rw [update]
      by_cases hkx : fold k = fold x
      · rw [if_pos hkx, bind_some] at h
        by_cases hxs : xs = []
        · rw [if_pos hxs] at h
          cases h
        · rw [if_neg hxs] at h
          rw [if_pos hkx, if_neg hxs, nodes, nodes]
          exact append_subset.mpr ⟨subset_append_of_subset_left _
            (cons_subset_cons _ (ihItems h _)), subset_append_right _ _⟩
      · rw [if_neg hkx, ← find_cons] at h
        rw [if_neg hkx, nodes, nodes]
        exact append_subset.mpr ⟨subset_append_left _ _,
          subset_append_of_subset_right _ (ihNext h _)⟩

theorem update_eq_self {f : α → α} (h : t.find fold xs = some found) (hf : f found.1 = found.1) :
    t.update fold dflt f xs = t := by
  induction t generalizing xs with
  | nil => rw [find_nil] at h; cases h
  | node k a items next ihItems ihNext =>
    cases xs with
    | nil => rfl
    | cons x xs =>
      rw [find_cons, child] at h
      rw [update]
      by_cases hkx : fold k = fold x
      · rw [if_pos hkx] at h ⊢
        by_cases hxs : xs = []
        · rw [bind_some, if_pos hxs] at h
          cases h
          rw [if_pos hxs, hf]
        · rw [bind_some, if_neg hxs] at h
          rw [if_neg hxs, ihItems h]
      · rw [if_neg hkx] at h ⊢
        rw [← find_cons] at h
        rw [ihNext h]

theorem find_mapItems_self (g : Forest κ α → Forest κ α) (t : Forest κ α) (hxs : xs ≠ []) :
    (t.mapItems fold g xs).find fold xs =
      (t.find fold xs).map fun found => (found.1, g found.2) := by
  induction xs generalizing t with
  | nil => exact absurd rfl hxs
  | cons x xs ih =>
    rw [find_cons, find_cons, child_mapItems, if_pos rfl]
    cases t.child fold x with
    | none => rfl
    | some found =>
      by_cases hxs' : xs = []
      · simp [hxs']
      · simp only [map_some, bind_some, if_neg hxs']
        exact ih found.2 hxs'

theorem find_mapItems (g : Forest κ α → Forest κ α) (t : Forest κ α)
    (h : ¬ys.map fold <+: xs.map fold) (h' : ¬xs.map fold <+: ys.map fold) :
    (t.mapItems fold g xs).find fold ys = t.find fold ys := by
  induction ys generalizing t xs with
  | nil => exact absurd nil_prefix h
  | cons y ys ih =>
    cases xs with
    | nil => exact absurd nil_prefix h'
    | cons x xs =>
      rw [find_cons, find_cons, child_mapItems]
      by_cases hxy : fold x = fold y
      · have hrest : ¬ys.map fold <+: xs.map fold := fun hpre =>
          h (cons_prefix_cons.mpr ⟨hxy.symm, hpre⟩)
        have hrest' : ¬xs.map fold <+: ys.map fold := fun hpre =>
          h' (cons_prefix_cons.mpr ⟨hxy, hpre⟩)
        have hys : ys ≠ [] := by
          rintro rfl
          exact hrest nil_prefix
        have hxs : xs ≠ [] := by
          rintro rfl
          exact hrest' nil_prefix
        rw [if_pos hxy, ← child_congr t hxy]
        cases t.child fold x with
        | none => rfl
        | some found =>
          simp only [map_some, bind_some, if_neg hys, if_neg hxs]
          exact ih found.2 hrest hrest'
      · rw [if_neg hxy]

variable (fold) in
def itemsAt (t : Forest κ α) (path : List κ) : Forest κ α :=
  ((t.find fold path).map Prod.snd).getD nil

theorem itemsAt_cons (t : Forest κ α) (x : κ) (xs : List κ) :
    t.itemsAt fold (x :: xs) =
      if xs = [] then ((t.child fold x).map Prod.snd).getD nil
      else (((t.child fold x).map Prod.snd).getD nil).itemsAt fold xs := by
  rw [itemsAt, find_cons]
  cases t.child fold x with
  | none => simp [itemsAt]
  | some found =>
    by_cases hxs : xs = []
    · simp [hxs]
    · simp only [bind_some, if_neg hxs]
      rfl

theorem label_concat (t : Forest κ α) (hxs : xs ≠ []) (x : κ) :
    t.label fold dflt (xs ++ [x]) = (t.itemsAt fold xs).label fold dflt [x] := by
  cases h : t.find fold xs with
  | none => rw [label_find_none hxs h, itemsAt, h, map_none, getD_none, label_nil]
  | some found =>
    rw [label_find h, if_neg (cons_ne_nil x []), itemsAt, h]
    rfl

theorem itemsAt_update (f : α → α) (t : Forest κ α) (hxs : xs ≠ [])
    (h : xs.map fold = ys.map fold) (zs : List κ) :
    (t.update fold dflt f (xs ++ zs)).itemsAt fold ys =
      (t.itemsAt fold ys).update fold dflt f zs := by
  induction xs generalizing t ys with
  | nil => exact absurd rfl hxs
  | cons x xs ih =>
    cases ys with
    | nil => cases h
    | cons y ys =>
      obtain ⟨hxy, hrest⟩ := List.cons.inj h
      have hitems : ((t.child fold y).map Prod.snd).getD nil =
          ((t.child fold x).getD (dflt, nil)).2 := by
        rw [child_congr t hxy]
        cases t.child fold y <;> rfl
      rw [itemsAt_cons, itemsAt_cons, cons_append, child_update, if_pos hxy, hitems,
        map_some, getD_some]
      by_cases hnil : xs = []
      · have hys : ys = [] := by
          rw [hnil] at hrest
          exact map_eq_nil_iff.mp hrest.symm
        rw [if_pos hys, if_pos hys, hnil, nil_append]
        by_cases hzs : zs = []
        · rw [if_pos hzs, hzs, update_nil_path]
        · rw [if_neg hzs]
      · have hys : ys ≠ [] := by
          rintro rfl
          exact hnil (map_eq_nil_iff.mp hrest)
        rw [if_neg hys, if_neg hys, if_neg (append_ne_nil_of_left_ne_nil hnil zs)]
        exact ih _ hnil hrest

theorem itemsAt_update_other (f : α → α) (t : Forest κ α) (h : ¬ys.map fold <+: xs.map fold) :
    (t.update fold dflt f xs).itemsAt fold ys = t.itemsAt fold ys := by
  rw [itemsAt, itemsAt, find_update f t h]

theorem child_append (t u : Forest κ α) (x : κ) :
    (t.append u).child fold x = (t.child fold x).or (u.child fold x) := by
  induction t with
  | nil => rfl
  | node k a items next _ ih =>
    rw [append, child, child, ih]
    split <;> rfl

theorem label_append (t u : Forest κ α) (x : κ) (xs : List κ) :
    (t.append u).label fold dflt (x :: xs) =
      if (t.child fold x).isSome then t.label fold dflt (x :: xs)
      else u.label fold dflt (x :: xs) := by
  rw [label_cons, label_cons, label_cons, child_append]
  cases t.child fold x <;> rfl

theorem child_isSome {x : κ} :
    (t.child fold x).isSome ↔ ∃ k ∈ t.keys, fold k = fold x := by
  induction t with
  | nil => simp [child, keys]
  | node k a items next _ ih =>
    rw [child, keys, exists_mem_cons_iff, ← ih]
    split
    · rename_i hkx
      simp [hkx]
    · rename_i hkx
      simp [hkx]

/-! ### Names that are twice -/

theorem keys_remove (t : Forest κ α) (xs : List κ) : (t.remove fold xs).keys ⊆ t.keys := by
  induction t generalizing xs with
  | nil => cases xs <;> exact List.Subset.refl _
  | node k a items next _ ih =>
    cases xs with
    | nil => exact List.Subset.refl _
    | cons x xs =>
      rw [Forest.remove]
      split
      · split
        · exact subset_cons_self k next.keys
        · exact List.Subset.refl _
      · exact cons_subset_cons k (ih (x :: xs))

theorem Apart.remove (h : t.Apart fold) (xs : List κ) :
    (t.remove fold xs).Apart fold := by
  induction t generalizing xs with
  | nil => cases xs <;> trivial
  | node k a items next ihItems ihNext =>
    cases xs with
    | nil => exact h
    | cons x xs =>
      obtain ⟨hnames, hitems, hnext⟩ := h
      rw [Forest.remove]
      split
      · split
        · exact hnext
        · exact ⟨hnames, ihItems hitems xs, hnext⟩
      · exact ⟨fun k' hk' => hnames k' (keys_remove next (x :: xs) hk'), hitems,
          ihNext hnext (x :: xs)⟩

omit [DecidableEq κ'] in
theorem apart_chain (f : α → α) (xs : List κ) : (chain dflt f xs).Apart fold := by
  induction xs with
  | nil => trivial
  | cons x xs ih => exact ⟨by simp [keys], ih, trivial⟩

theorem keys_update (f : α → α) (t : Forest κ α) {x : κ} (xs : List κ) {k : κ}
    (hk : k ∈ (t.update fold dflt f (x :: xs)).keys) : k ∈ t.keys ∨ k = x := by
  induction t with
  | nil =>
    obtain rfl | hk := mem_cons.mp hk
    · exact .inr rfl
    · cases hk
  | node k' a items next _ ih =>
    rw [Forest.update] at hk
    by_cases hkx : fold k' = fold x
    · rw [if_pos hkx] at hk
      split at hk
      · exact .inl hk
      · exact .inl hk
    · rw [if_neg hkx] at hk
      obtain rfl | hk := mem_cons.mp hk
      · exact .inl mem_cons_self
      · exact (ih hk).imp (mem_cons_of_mem k') id

theorem Apart.update (h : t.Apart fold) (f : α → α) (xs : List κ) :
    (t.update fold dflt f xs).Apart fold := by
  induction t generalizing xs with
  | nil =>
    cases xs with
    | nil => trivial
    | cons x xs => exact apart_chain f (x :: xs)
  | node k a items next ihItems ihNext =>
    cases xs with
    | nil => exact h
    | cons x xs =>
      obtain ⟨hnames, hitems, hnext⟩ := h
      rw [Forest.update]
      by_cases hkx : fold k = fold x
      · rw [if_pos hkx]
        split
        · exact ⟨hnames, hitems, hnext⟩
        · exact ⟨hnames, ihItems hitems xs, hnext⟩
      · rw [if_neg hkx]
        refine ⟨fun k' hk' => ?_, hitems, ihNext hnext (x :: xs)⟩
        obtain hk' | rfl := keys_update f next xs hk'
        · exact hnames k' hk'
        · exact Ne.symm hkx

omit [DecidableEq κ'] in
theorem keys_append (t u : Forest κ α) : (t.append u).keys = t.keys ++ u.keys := by
  induction t with
  | nil => rfl
  | node k a items next _ ih => rw [append, keys, keys, ih, cons_append]

omit [DecidableEq κ'] in
theorem Apart.append {u : Forest κ α} (h : t.Apart fold) (hu : u.Apart fold)
    (hnames : ∀ k ∈ t.keys, ∀ x ∈ u.keys, fold x ≠ fold k) : (t.append u).Apart fold := by
  induction t with
  | nil => exact hu
  | node k a items next _ ih =>
    obtain ⟨hfirst, hitems, hnext⟩ := h
    refine ⟨fun x hx => ?_, hitems, ih hnext fun k' hk' => hnames k' (mem_cons_of_mem k hk')⟩
    rw [keys_append] at hx
    rcases mem_append.mp hx with hx | hx
    · exact hfirst x hx
    · exact hnames k mem_cons_self x hx

theorem keys_mapItems (g : Forest κ α → Forest κ α) (t : Forest κ α) (xs : List κ) :
    (t.mapItems fold g xs).keys = t.keys := by
  induction t generalizing xs with
  | nil => cases xs <;> rfl
  | node k a items next _ ih =>
    cases xs with
    | nil => rfl
    | cons x xs =>
      rw [mapItems]
      split
      · rfl
      · rw [keys, keys, ih]

theorem Apart.mapItems {g : Forest κ α → Forest κ α} (h : t.Apart fold)
    (hg : ∀ a items, t.find fold xs = some (a, items) → items.Apart fold → (g items).Apart fold) :
    (t.mapItems fold g xs).Apart fold := by
  induction t generalizing xs with
  | nil => cases xs <;> trivial
  | node k a items next ihItems ihNext =>
    cases xs with
    | nil => exact h
    | cons x xs =>
      obtain ⟨hnames, hitems, hnext⟩ := h
      rw [Forest.mapItems]
      simp only [find_cons, child] at hg
      by_cases hkx : fold k = fold x
      · simp only [if_pos hkx, bind_some] at hg ⊢
        refine ⟨hnames, ?_, hnext⟩
        by_cases hxs : xs = []
        · simp only [if_pos hxs] at hg ⊢
          exact hg a items rfl hitems
        · simp only [if_neg hxs] at hg ⊢
          exact ihItems hitems hg
      · simp only [if_neg hkx] at hg ⊢
        refine ⟨fun x' hx' => hnames x' (by rwa [keys_mapItems] at hx'), hitems, ihNext hnext ?_⟩
        simpa only [find_cons] using hg

theorem Apart.child {x : κ} (h : t.Apart fold)
    (hfound : t.child fold x = some found) : found.2.Apart fold := by
  induction t with
  | nil => cases hfound
  | node k a items next _ ih =>
    rw [Forest.child] at hfound
    split at hfound
    · cases hfound
      exact h.2.1
    · exact ih h.2.2 hfound

theorem Apart.find {xs : List κ} (h : t.Apart fold)
    (hfound : t.find fold xs = some found) : found.2.Apart fold := by
  obtain ⟨u, x, hu, hchild⟩ := child_of_find Apart.child h hfound
  exact hu.child hchild

end Names

end Forest

end Sandboxie
