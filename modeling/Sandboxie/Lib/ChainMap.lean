import Mathlib.Algebra.Order.Ring.Int
import Mathlib.Data.List.Basic

/-!
# Hashed maps with chains

A map is an array of buckets, and a bucket is a chain of nodes.  A node is in the bucket
of its hash, new nodes go to either end of their chain, and the array is replaced by a
larger one when the chains get long.

What the operations do to the map is what they do to `withHash h`, the nodes of hash `h` in
the order of their chain: adding puts a node at an end of it (`withHash_add`), resizing
does nothing (`withHash_resize`), and a lookup finds the first node there that has the key
(`get_eq`).  An iteration over a key is the sub-sequence with that key (`keyed_eq`).
-/

namespace Sandboxie

open List

/-- The bucket of a hash in an array of `n`, where `n` is a power of 2. -/
def bucketIdx (n h : Nat) : Nat := h &&& (n - 1)

theorem bucketIdx_lt {n : Nat} (hn : 0 < n) (h : Nat) : bucketIdx n h < n := by
  have hle : h &&& (n - 1) ≤ n - 1 := Nat.and_le_right
  unfold bucketIdx
  omega

section Buckets

variable {α : Type} (hash : α → Nat)

def Placed (bs : List (List α)) : Prop :=
  ∀ (i : Nat) (b : List α), bs[i]? = some b → ∀ x ∈ b, bucketIdx bs.length (hash x) = i

/-- A node is put at an end of its chain. -/
def addNode (bs : List (List α)) (x : α) (append : Bool) : List (List α) :=
  bs.modify (bucketIdx bs.length (hash x)) fun b => if append then b ++ [x] else x :: b

def chainOf (bs : List (List α)) (h : Nat) : List α := bs.getD (bucketIdx bs.length h) []

def hasHash (h : Nat) (x : α) : Bool := hash x == h

def hasKey (h : Nat) (key : α → Bool) (x : α) : Bool := hash x == h && key x

def nodesOf (bs : List (List α)) (h : Nat) : List α := (chainOf bs h).filter (hasHash hash h)

variable {hash}

theorem hasHash_iff {h : Nat} {x : α} : hasHash hash h x = true ↔ hash x = h := beq_iff_eq

theorem hasKey_iff {h : Nat} {key : α → Bool} {x : α} :
    hasKey hash h key x = true ↔ hash x = h ∧ key x = true := by
  rw [hasKey, Bool.and_eq_true, beq_iff_eq]

theorem placed_replicate (n : Nat) : Placed hash (List.replicate n []) := by
  intro i b hb x hx
  rw [getElem?_replicate] at hb
  split at hb
  · rw [← Option.some.inj hb] at hx
    cases hx
  · cases hb

theorem placed_modify {bs : List (List α)} {h : Nat} {f : List α → List α} (hbs : Placed hash bs)
    (hf : ∀ b, ∀ x ∈ f b, x ∈ b ∨ bucketIdx bs.length (hash x) = bucketIdx bs.length h) :
    Placed hash (bs.modify (bucketIdx bs.length h) f) := by
  intro i b hb x hx
  rw [length_modify]
  rw [getElem?_modify] at hb
  cases hi : bs[i]? with
  | none =>
    rw [hi] at hb
    cases hb
  | some b0 =>
    rw [hi] at hb
    have hb' := Option.some.inj hb
    dsimp only at hb'
    by_cases heq : bucketIdx bs.length h = i
    · rw [if_pos heq] at hb'
      rw [← hb'] at hx
      rcases hf b0 x hx with h0 | h0
      · exact hbs i b0 hi x h0
      · exact h0.trans heq
    · rw [if_neg heq] at hb'
      rw [← hb'] at hx
      exact hbs i b0 hi x hx

theorem placed_addNode {bs : List (List α)} (x : α) (append : Bool) (hbs : Placed hash bs) :
    Placed hash (addNode hash bs x append) := by
  refine placed_modify hbs fun b y hy => ?_
  cases append with
  | true =>
    rcases mem_append.mp hy with h | h
    · exact Or.inl h
    · exact Or.inr (by rw [mem_singleton.mp h])
  | false =>
    rcases mem_cons.mp hy with h | h
    · exact Or.inr (by rw [h])
    · exact Or.inl h

theorem length_addNode (bs : List (List α)) (x : α) (append : Bool) :
    (addNode hash bs x append).length = bs.length := length_modify _ _ _

theorem placed_foldl (xs : List α) : ∀ {bs : List (List α)}, Placed hash bs →
    Placed hash (xs.foldl (fun bs x => addNode hash bs x false) bs) := by
  induction xs with
  | nil => exact fun h => h
  | cons x xs ih => exact fun h => ih (placed_addNode x false h)

theorem chainOf_modify (bs : List (List α)) (h : Nat) (f : List α → List α) (h' : Nat)
    (hpos : 0 < bs.length) : chainOf (bs.modify (bucketIdx bs.length h) f) h' =
      if bucketIdx bs.length h = bucketIdx bs.length h' then f (chainOf bs h')
      else chainOf bs h' := by
  have hlt := bucketIdx_lt hpos h'
  unfold chainOf
  rw [length_modify, getD_eq_getElem?_getD, getElem?_modify,
    getD_eq_getElem?_getD, getElem?_eq_getElem hlt]
  show (if bucketIdx bs.length h = bucketIdx bs.length h' then f _ else _) = _
  split <;> rfl

theorem nodesOf_addNode {bs : List (List α)} (x : α) (append : Bool) (h : Nat)
    (hpos : 0 < bs.length) : nodesOf hash (addNode hash bs x append) h =
      if hash x = h then (if append then nodesOf hash bs h ++ [x] else x :: nodesOf hash bs h)
      else nodesOf hash bs h := by
  unfold nodesOf addNode
  rw [chainOf_modify _ _ _ _ hpos]
  by_cases hx : hash x = h
  · have hself : hasHash hash h x = true := hasHash_iff.mpr hx
    rw [if_pos (by rw [hx]), if_pos hx]
    cases append with
    | true =>
      rw [if_pos rfl, if_pos rfl, filter_append, filter_cons_of_pos hself,
        filter_nil]
    | false =>
      rw [if_neg (by decide), if_neg (by decide), filter_cons_of_pos hself]
  · have hself : ¬ hasHash hash h x = true := fun h' => hx (hasHash_iff.mp h')
    rw [if_neg hx]
    by_cases hidx : bucketIdx bs.length (hash x) = bucketIdx bs.length h
    · rw [if_pos hidx]
      cases append with
      | true =>
        rw [if_pos rfl, filter_append, filter_cons_of_neg hself, filter_nil,
          append_nil]
      | false => rw [if_neg (by decide), filter_cons_of_neg hself]
    · rw [if_neg hidx]

theorem nodesOf_foldl (h : Nat) : ∀ (xs : List α) (bs : List (List α)), 0 < bs.length →
    nodesOf hash (xs.foldl (fun bs x => addNode hash bs x false) bs) h =
      (xs.filter (hasHash hash h)).reverse ++ nodesOf hash bs h := by
  intro xs
  induction xs with
  | nil => exact fun bs _ => rfl
  | cons x xs ih =>
    intro bs hpos
    rw [foldl_cons, ih _ (by rw [length_addNode]; exact hpos), nodesOf_addNode _ _ _ hpos]
    by_cases hx : hash x = h
    · rw [if_pos hx, if_neg (by decide), filter_cons_of_pos (hasHash_iff.mpr hx),
        reverse_cons, append_assoc, singleton_append]
    · rw [if_neg hx, filter_cons_of_neg fun h' => hx (hasHash_iff.mp h')]

theorem nodesOf_replicate (n h : Nat) : nodesOf hash (List.replicate n []) h = [] := by
  have hnil : chainOf (List.replicate n ([] : List α)) h = [] := by
    unfold chainOf
    rw [getD_eq_getElem?_getD, getElem?_replicate]
    split <;> rfl
  rw [nodesOf, hnil, filter_nil]

theorem flatten_of_only : ∀ {l : List (List α)} {i : Nat},
    (∀ (j : Nat) (b : List α), l[j]? = some b → j ≠ i → b = []) →
      l.flatten = l.getD i [] ∧ l.reverse.flatten = l.getD i [] := by
  intro l
  induction l with
  | nil => exact fun _ => ⟨rfl, rfl⟩
  | cons b rest ih =>
    intro i honly
    rw [flatten_cons, reverse_cons, flatten_append, flatten_singleton]
    cases i with
    | zero =>
      have hrest : ∀ c ∈ rest, c = [] := by
        intro c hc
        obtain ⟨j, hj⟩ := getElem?_of_mem hc
        exact honly (j + 1) c (by rw [getElem?_cons_succ]; exact hj) (Nat.succ_ne_zero j)
      have hflat : rest.flatten = [] := flatten_eq_nil_iff.mpr hrest
      have hflat' : rest.reverse.flatten = [] :=
        flatten_eq_nil_iff.mpr fun c hc => hrest c (mem_reverse.mp hc)
      rw [hflat, hflat', append_nil, nil_append, getD_cons_zero]
      exact ⟨rfl, rfl⟩
    | succ i =>
      obtain rfl := honly 0 b getElem?_cons_zero (Nat.succ_ne_zero i).symm
      rw [nil_append, append_nil, getD_cons_succ]
      refine ih fun j c hj hne => honly (j + 1) c ?_ (fun h => hne (by omega))
      rw [getElem?_cons_succ]
      exact hj

theorem filter_flatten_of_placed {bs : List (List α)} (hbs : Placed hash bs) (h : Nat) :
    bs.flatten.filter (hasHash hash h) = nodesOf hash bs h ∧
      bs.reverse.flatten.filter (hasHash hash h) = nodesOf hash bs h := by
  have honly : ∀ (j : Nat) (b : List α),
      (bs.map (List.filter (hasHash hash h)))[j]? = some b →
        j ≠ bucketIdx bs.length h → b = [] := by
    intro j b hb hne
    rw [getElem?_map] at hb
    obtain ⟨b0, hb0, rfl⟩ := Option.map_eq_some_iff.mp hb
    refine filter_eq_nil_iff.mpr fun x hx hhash => hne ?_
    rw [← hbs j b0 hb0 x hx, hasHash_iff.mp hhash]
  obtain ⟨hflat, hflat'⟩ := flatten_of_only honly
  have hget : (bs.map (List.filter (hasHash hash h))).getD (bucketIdx bs.length h) [] =
      nodesOf hash bs h := by
    unfold nodesOf chainOf
    rw [getD_eq_getElem?_getD, getElem?_map, getD_eq_getElem?_getD]
    cases bs[bucketIdx bs.length h]? <;> rfl
  rw [filter_flatten, filter_flatten, map_reverse, hflat, hflat', hget]
  exact ⟨rfl, rfl⟩

end Buckets

/-- A map whose nodes have their hash from `hash`. -/
structure ChainMap {α : Type} (hash : α → Nat) where
  buckets : List (List α)
  nnodes : Nat
  placed : Placed hash buckets

namespace ChainMap

variable {α : Type} {hash : α → Nat}

/-! ### The operations -/

def empty : ChainMap hash := ⟨[], 0, placed_replicate 0⟩

/-- The nodes are taken out, the last bucket first, and put in front of their new
chains. -/
def resize (m : ChainMap hash) (nbuckets : Nat) : ChainMap hash where
  buckets := (m.buckets.reverse.flatten.reverse).foldl (fun bs x => addNode hash bs x false)
    (List.replicate nbuckets [])
  nnodes := m.nnodes
  placed := placed_foldl _ (placed_replicate nbuckets)

/-- The buckets are doubled when there are two nodes for each of them. -/
def grow (m : ChainMap hash) : ChainMap hash :=
  if m.nnodes >>> 1 ≥ m.buckets.length then
    m.resize (if m.buckets.length > 0 then m.buckets.length <<< 1 else 1)
  else m

/-- A new node, at the end of its chain or in front of it. -/
def add (m : ChainMap hash) (x : α) (append : Bool) : ChainMap hash where
  buckets := addNode hash m.grow.buckets x append
  nnodes := m.nnodes + 1
  placed := placed_addNode x append m.grow.placed

/-- The first node of hash `h` that has the key. -/
def get (m : ChainMap hash) (h : Nat) (key : α → Bool) : Option α :=
  (chainOf m.buckets h).find? (hasKey hash h key)

/-- That node is taken out. -/
def remove (m : ChainMap hash) (h : Nat) (key : α → Bool) : ChainMap hash where
  buckets := m.buckets.modify (bucketIdx m.buckets.length h)
    (List.eraseP (hasKey hash h key))
  nnodes := if (m.get h key).isSome then m.nnodes - 1 else m.nnodes
  placed := placed_modify m.placed fun _ _ hx => Or.inl (List.mem_of_mem_eraseP hx)

/-- The node that an iteration is at is taken out. -/
def erase [DecidableEq α] (m : ChainMap hash) (x : α) : ChainMap hash where
  buckets := m.buckets.modify (bucketIdx m.buckets.length (hash x)) (List.erase · x)
  nnodes := m.nnodes - 1
  placed := placed_modify m.placed fun _ _ hx => Or.inl (List.mem_of_mem_erase hx)

variable (hash) in
/-- An iteration over a key from a node on.  The key is the one of the node before. -/
def keyedFrom (same : α → α → Bool) (h : Nat) : (α → Bool) → List α → List α
  | _, [] => []
  | key, x :: rest =>
    if hasKey hash h key x then x :: keyedFrom same h (same x) rest
    else keyedFrom same h key rest

def keyed (same : α → α → Bool) (m : ChainMap hash) (h : Nat) (key : α → Bool) : List α :=
  keyedFrom hash same h key (chainOf m.buckets h)

def nodes (m : ChainMap hash) : List α := m.buckets.flatten

/-! ### The nodes of a hash -/

def withHash (m : ChainMap hash) (h : Nat) : List α := nodesOf hash m.buckets h

theorem filter_nodes (m : ChainMap hash) (h : Nat) :
    m.nodes.filter (hasHash hash h) = m.withHash h :=
  (filter_flatten_of_placed m.placed h).1

variable {m : ChainMap hash}

theorem mem_nodes {x : α} : x ∈ m.nodes ↔ x ∈ m.withHash (hash x) := by
  rw [← filter_nodes, mem_filter]
  exact ⟨fun h => ⟨h, hasHash_iff.mpr rfl⟩, fun h => h.1⟩

theorem mem_withHash {x : α} {h : Nat} :
    x ∈ m.withHash h ↔ x ∈ m.nodes ∧ hash x = h := by
  rw [← filter_nodes, mem_filter, hasHash_iff]

theorem nodes_empty : (empty : ChainMap hash).nodes = [] := rfl

theorem length_resize (m : ChainMap hash) (n : Nat) : (m.resize n).buckets.length = n := by
  have hfold : ∀ (xs : List α) (bs : List (List α)),
      (xs.foldl (fun bs x => addNode hash bs x false) bs).length = bs.length := by
    intro xs
    induction xs with
    | nil => exact fun _ => rfl
    | cons x xs ih => exact fun bs => (ih _).trans (length_addNode bs x false)
  exact (hfold _ _).trans length_replicate

/-- **Resizing** keeps the nodes of each hash in their order. -/
@[simp] theorem withHash_resize (m : ChainMap hash) {n : Nat} (hn : 0 < n) (h : Nat) :
    (m.resize n).withHash h = m.withHash h := by
  have hpos : 0 < (List.replicate n ([] : List α)).length := by
    rw [length_replicate]
    exact hn
  show nodesOf hash (m.resize n).buckets h = nodesOf hash m.buckets h
  unfold resize
  rw [nodesOf_foldl h _ _ hpos, nodesOf_replicate, append_nil, filter_reverse,
    reverse_reverse, (filter_flatten_of_placed m.placed h).2]

theorem withHash_grow (m : ChainMap hash) (h : Nat) : m.grow.withHash h = m.withHash h := by
  unfold grow
  split
  · refine withHash_resize m ?_ h
    split
    · rw [Nat.shiftLeft_eq]
      omega
    · decide
  · rfl

theorem length_grow (m : ChainMap hash) : 0 < m.grow.buckets.length := by
  unfold grow
  split
  · rw [length_resize]
    split
    · rw [Nat.shiftLeft_eq]
      omega
    · decide
  · omega

theorem withHash_add (m : ChainMap hash) (x : α) (append : Bool) (h : Nat) :
    (m.add x append).withHash h =
      if hash x = h then (if append then m.withHash h ++ [x] else x :: m.withHash h)
      else m.withHash h := by
  have hadd := @nodesOf_addNode _ hash _ x append h (length_grow m)
  have hgrow : nodesOf hash m.grow.buckets h = m.withHash h := withHash_grow m h
  rw [hgrow] at hadd
  exact hadd

theorem get_eq (m : ChainMap hash) (h : Nat) (key : α → Bool) :
    m.get h key = (m.withHash h).find? key := by
  have hkey : hasKey hash h key = fun x => decide (hasHash hash h x = true ∧ key x = true) := by
    funext x
    rw [Bool.eq_iff_iff, hasKey_iff, decide_eq_true_iff, hasHash_iff]
  rw [get, hkey, withHash, nodesOf, find?_filter]

theorem withHash_modify (m : ChainMap hash) (h : Nat) (f : List α → List α) (h' : Nat)
    (hf : f [] = []) : chainOf (m.buckets.modify (bucketIdx m.buckets.length h) f) h' =
      if bucketIdx m.buckets.length h = bucketIdx m.buckets.length h' then
        f (chainOf m.buckets h')
      else chainOf m.buckets h' := by
  by_cases hpos : 0 < m.buckets.length
  · exact chainOf_modify _ _ _ _ hpos
  · have hnil : m.buckets = [] := length_eq_zero_iff.mp (by omega)
    have hchain : chainOf m.buckets h' = [] := by
      rw [hnil]
      rfl
    rw [hchain, hf, ite_self, hnil, modify_nil]
    rfl

theorem withHash_remove (m : ChainMap hash) (h : Nat) (key : α → Bool) (h' : Nat) :
    (m.remove h key).withHash h' =
      if h = h' then (m.withHash h').eraseP key else m.withHash h' := by
  show nodesOf hash (m.remove h key).buckets h' = _
  unfold remove nodesOf withHash nodesOf
  rw [withHash_modify _ _ _ _ eraseP_nil]
  have herase : ∀ l : List α, (l.eraseP (hasKey hash h key)).filter (hasHash hash h') =
      if h = h' then (l.filter (hasHash hash h')).eraseP key else l.filter (hasHash hash h') := by
    intro l
    induction l with
    | nil => split <;> rfl
    | cons x l ih =>
      by_cases hx : hash x = h
      · by_cases hk : key x = true
        · rw [eraseP_cons_of_pos (hasKey_iff.mpr ⟨hx, hk⟩)]
          by_cases hh : h = h'
          · rw [if_pos hh, filter_cons_of_pos (hasHash_iff.mpr (hx.trans hh)),
              eraseP_cons_of_pos hk]
          · rw [if_neg hh,
              filter_cons_of_neg fun h0 => hh (hx.symm.trans (hasHash_iff.mp h0))]
        · rw [eraseP_cons_of_neg fun h0 => hk (hasKey_iff.mp h0).2]
          by_cases hh : h = h'
          · have hself : hasHash hash h' x = true := hasHash_iff.mpr (hx.trans hh)
            rw [if_pos hh, filter_cons_of_pos hself, filter_cons_of_pos hself,
              eraseP_cons_of_neg hk, ih, if_pos hh]
          · have hself : ¬ hasHash hash h' x = true :=
              fun h0 => hh (hx.symm.trans (hasHash_iff.mp h0))
            rw [if_neg hh, filter_cons_of_neg hself, filter_cons_of_neg hself, ih,
              if_neg hh]
      · rw [eraseP_cons_of_neg fun h0 => hx (hasKey_iff.mp h0).1]
        by_cases hself : hasHash hash h' x = true
        · have hh : ¬ h = h' := fun h0 => hx ((hasHash_iff.mp hself).trans h0.symm)
          rw [filter_cons_of_pos hself, filter_cons_of_pos hself, ih, if_neg hh,
            if_neg hh]
        · rw [filter_cons_of_neg hself, filter_cons_of_neg hself, ih]
  by_cases hidx : bucketIdx m.buckets.length h = bucketIdx m.buckets.length h'
  · rw [if_pos hidx, herase]
  · rw [if_neg hidx, if_neg fun h0 => hidx (by rw [h0])]

theorem withHash_erase [DecidableEq α] (m : ChainMap hash) (x : α) (h : Nat) :
    (m.erase x).withHash h = if hash x = h then (m.withHash h).erase x else m.withHash h := by
  show nodesOf hash (m.erase x).buckets h = _
  unfold erase nodesOf withHash nodesOf
  rw [withHash_modify _ _ (List.erase · x) _ (erase_nil x)]
  by_cases hidx : bucketIdx m.buckets.length (hash x) = bucketIdx m.buckets.length h
  · rw [if_pos hidx]
    by_cases hx : hash x = h
    · rw [if_pos hx, erase_filter]
    · rw [if_neg hx, ← erase_filter, erase_of_not_mem]
      intro hmem
      exact hx (hasHash_iff.mp (mem_filter.mp hmem).2)
  · rw [if_neg hidx, if_neg fun h0 => hidx (by rw [h0])]

theorem mem_nodes_add {x y : α} {append : Bool} :
    y ∈ (m.add x append).nodes ↔ y ∈ m.nodes ∨ y = x := by
  rw [mem_nodes, withHash_add, mem_nodes]
  by_cases hx : hash x = hash y
  · rw [if_pos hx]
    cases append with
    | true => rw [if_pos rfl, mem_append, mem_singleton]
    | false => rw [if_neg (by decide), mem_cons, or_comm]
  · rw [if_neg hx]
    refine ⟨Or.inl, fun h => h.resolve_right fun heq => hx (by rw [heq])⟩

theorem mem_nodes_erase [DecidableEq α] {x y : α}
    (hm : (m.withHash (hash x)).Nodup) : y ∈ (m.erase x).nodes ↔ y ∈ m.nodes ∧ y ≠ x := by
  rw [mem_nodes, withHash_erase, mem_nodes]
  by_cases hx : hash x = hash y
  · rw [if_pos hx]
    rw [hx] at hm
    rw [hm.mem_erase_iff, and_comm]
  · rw [if_neg hx]
    exact ⟨fun h => ⟨h, fun heq => hx (by rw [heq])⟩, fun h => h.1⟩

theorem mem_nodes_remove {x y : α} {key : α → Bool} (hx : x ∈ m.nodes)
    (hkey : key x = true) (hm : (m.withHash (hash x)).Nodup)
    (honly : ∀ z ∈ m.withHash (hash x), key z = true → z = x) :
    y ∈ (m.remove (hash x) key).nodes ↔ y ∈ m.nodes ∧ y ≠ x := by
  rw [mem_nodes, withHash_remove, mem_nodes]
  by_cases hh : hash x = hash y
  · rw [if_pos hh]
    rw [mem_nodes] at hx
    rw [hh] at hx hm honly
    obtain ⟨z, l1, l2, _, hz, hl, herase⟩ := exists_of_eraseP hx hkey
    have hzx : z = x := honly z (by rw [hl]; exact mem_append_right _ mem_cons_self) hz
    rw [hzx] at hl
    rw [herase, hl]
    rw [hl] at hm
    have hnot : x ∉ l1 ++ l2 := fun hmem =>
      (nodup_cons.mp (perm_middle.nodup_iff.mp hm)).1 hmem
    have hmem : y ∈ l1 ++ x :: l2 ↔ y = x ∨ y ∈ l1 ++ l2 := by
      rw [mem_append, mem_cons, mem_append]
      exact or_left_comm
    rw [hmem]
    exact ⟨fun h => ⟨Or.inr h, fun heq => hnot (heq ▸ h)⟩, fun h => h.1.resolve_left h.2⟩
  · rw [if_neg hh]
    exact ⟨fun h => ⟨h, fun heq => hh (by rw [heq])⟩, fun h => h.1⟩

theorem keyedFrom_eq {same : α → α → Bool} {h : Nat} {key : α → Bool}
    (hsame : ∀ x, key x = true → same x = key) : ∀ l : List α,
      keyedFrom hash same h key l = l.filter (hasKey hash h key) := by
  intro l
  induction l with
  | nil => rfl
  | cons x l ih =>
    rw [keyedFrom]
    by_cases hx : hasKey hash h key x = true
    · rw [if_pos hx, filter_cons_of_pos hx, hsame x (hasKey_iff.mp hx).2, ih]
    · rw [if_neg hx, filter_cons_of_neg hx, ih]

/-- **An iteration over a key** is the sub-sequence of the nodes of the hash that have the
key, when nodes with the key have the same key. -/
theorem keyed_eq {same : α → α → Bool} {h : Nat} {key : α → Bool}
    (hsame : ∀ x, key x = true → same x = key) :
    m.keyed same h key = (m.withHash h).filter key := by
  rw [keyed, keyedFrom_eq hsame, withHash, nodesOf, filter_filter]
  refine filter_congr fun x _ => ?_
  rw [hasKey, hasHash, Bool.and_comm]

/-! ### The number of nodes -/

def Counted (m : ChainMap hash) : Prop := m.nnodes = m.nodes.length

theorem count_nodes [DecidableEq α] (m : ChainMap hash) (x : α) :
    m.nodes.count x = (m.withHash (hash x)).count x := by
  rw [← filter_nodes, count_filter (hasHash_iff.mpr rfl)]

theorem perm_of_withHash {m m' : ChainMap hash} (h : ∀ k, m'.withHash k = m.withHash k) :
    m'.nodes.Perm m.nodes := by
  classical
  refine perm_iff_count.mpr fun x => ?_
  rw [count_nodes, count_nodes, h]

theorem nodes_add (m : ChainMap hash) (x : α) (append : Bool) :
    (m.add x append).nodes.Perm (x :: m.nodes) := by
  classical
  refine perm_iff_count.mpr fun y => ?_
  rw [count_nodes, withHash_add, count_cons, count_nodes]
  by_cases hx : hash x = hash y
  · rw [if_pos hx]
    cases append with
    | true => rw [if_pos rfl, count_append, count_singleton]
    | false => rw [if_neg (by decide), count_cons]
  · have hne : ¬ (x == y) = true := fun heq => hx (by rw [beq_iff_eq.mp heq])
    rw [if_neg hx, if_neg hne, Nat.add_zero]

theorem nodes_remove (m : ChainMap hash) (h : Nat) (key : α → Bool) :
    match m.get h key with
    | some x => m.nodes.Perm (x :: (m.remove h key).nodes)
    | none => m.nodes.Perm (m.remove h key).nodes := by
  classical
  rw [get_eq]
  cases hfind : (m.withHash h).find? key with
  | none =>
    refine perm_of_withHash fun k => ?_
    rw [withHash_remove]
    by_cases hk : h = k
    · rw [if_pos hk, ← hk, eraseP_of_forall_not]
      exact fun x hx => find?_eq_none.mp hfind x hx
    · rw [if_neg hk]
  | some x =>
    have hx := mem_of_find?_eq_some hfind
    have hhash := (mem_withHash.mp hx).2
    obtain ⟨hkey, front, behind, hsplit, hfront⟩ := find?_eq_some_iff_append.mp hfind
    refine perm_iff_count.mpr fun y => ?_
    rw [count_cons, count_nodes, count_nodes, withHash_remove]
    by_cases hy : h = hash y
    · have herase : (front ++ x :: behind).eraseP key = front ++ behind := by
        rw [eraseP_append_right _ (fun z hz => by simpa using hfront z hz),
          eraseP_cons_of_pos hkey]
      rw [if_pos hy, ← hy, hsplit, herase, count_append, count_append, count_cons]
      exact (Nat.add_assoc _ _ _).symm
    · have hne : ¬ (x == y) = true := fun heq => hy (by rw [← beq_iff_eq.mp heq, hhash])
      rw [if_neg hy, if_neg hne, Nat.add_zero]

theorem counted_empty : (empty : ChainMap hash).Counted := rfl

theorem Counted.resize (h : m.Counted) {n : Nat} (hn : 0 < n) :
    (m.resize n).Counted :=
  h.trans (perm_of_withHash (withHash_resize m hn)).length_eq.symm

theorem Counted.add (h : m.Counted) (x : α) (append : Bool) :
    (m.add x append).Counted := by
  show m.nnodes + 1 = _
  rw [(nodes_add m x append).length_eq, h, length_cons]

theorem Counted.remove (hm : m.Counted) (h : Nat) (key : α → Bool) :
    (m.remove h key).Counted := by
  have hnodes := nodes_remove m h key
  show (if (m.get h key).isSome then m.nnodes - 1 else m.nnodes) = _
  cases hget : m.get h key with
  | none =>
    rw [hget] at hnodes
    exact hm.trans hnodes.length_eq
  | some x =>
    rw [hget] at hnodes
    have hlen := hnodes.length_eq
    rw [length_cons] at hlen
    rw [if_pos Option.isSome_some, hm, hlen, Nat.add_sub_cancel]

end ChainMap

end Sandboxie
