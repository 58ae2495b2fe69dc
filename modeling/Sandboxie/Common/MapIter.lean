import Mathlib.Data.List.Nodup
import Sandboxie.Lib.ChainMap
import Sandboxie.Lib.Run

/-!
# Iterating over a map

`map_append`, `map_insert`, `map_remove`, `map_next` and `map_erase` of `common/map.c` on maps
with any hash and any match of their keys.  An iterator has its node and the index of the bucket
where it found it; the table can be replaced while it stands there.

A node has an `id` that no other node ever has, which stands for its address.  Numbers of nodes
are far from the end of an `int`.  `visited` records the nodes that an iterator has come to; an
iterator at its end is left alone.

`map_erase` looks for its node in the bucket of the iterator, and runs out of the chain when the
table was resized meanwhile and the node is in another one.  `keyed_walk` says what an iteration
over a key does as long as that does not happen.
-/

namespace Sandboxie.MapIter

open List

/-- `func_hash_key` and `func_match_key` of a map. -/
structure Keys (κ : Type) where
  hash : κ → UInt32
  same : κ → κ → Bool
  equiv : Equivalence fun a b => same a b = true

/-- `map_node_t` -/
structure MapNode (κ ν : Type) where
  id : Nat
  key : κ
  value : ν
deriving DecidableEq

variable {κ ν : Type}

/-- The `hash` of a node. -/
def Keys.nodeHash (K : Keys κ) (x : MapNode κ ν) : Nat := (K.hash x.key).toNat

abbrev HashMap (K : Keys κ) (ν : Type) := ChainMap (K.nodeHash (ν := ν))

/-- `map_iter_t`; `query` is the key of a keyed iterator. -/
structure Iter (κ ν : Type) where
  bucketIdx : Int
  node : Option (MapNode κ ν)
  query : Option κ

def mapIter : Iter κ ν := ⟨-1, none, none⟩

def mapKeyIter (key : κ) : Iter κ ν := ⟨-1, none, some key⟩

def Iter.reach (it : Iter κ ν) (x : MapNode κ ν) : Iter κ ν :=
  { it with node := some x, query := it.query.map fun _ => x.key }

section Maps

variable {K : Keys κ} [DecidableEq κ] [DecidableEq ν]

/-- What is behind a node in its chain; `none` when the node is not there any more. -/
def after (m : HashMap K ν) (x : MapNode κ ν) : Option (List (MapNode κ ν)) :=
  match (chainOf m.buckets (K.nodeHash x)).dropWhile (· ≠ x) with
  | [] => none
  | _ :: rest => some rest

def firstNode : List (List (MapNode κ ν)) → Int → Int × Option (MapNode κ ν)
  | [], i => (i, none)
  | [] :: bs, i => firstNode bs (i + 1)
  | (x :: _) :: _, i => (i, some x)

def nextBucket (m : HashMap K ν) (it : Iter κ ν) : Iter κ ν :=
  let found := firstNode (m.buckets.drop (it.bucketIdx + 1).toNat) (it.bucketIdx + 1)
  match found.2 with
  | none => { it with bucketIdx := found.1, node := none }
  | some x => { it with bucketIdx := found.1 }.reach x

/-- The node that `map_getref` finds. -/
def mapGetRef (m : HashMap K ν) (key : κ) : Option (MapNode κ ν) :=
  m.get (K.hash key).toNat fun x => K.same x.key key

/-- `map_next`; `none` when it follows a node that is not there any more. -/
def mapNext (m : HashMap K ν) (it : Iter κ ν) : Option (Iter κ ν) :=
  match it.node, it.query with
  | some x, some key =>
    (after m x).map fun rest =>
      match rest.find? (hasKey K.nodeHash (K.nodeHash x) fun y => K.same y.key key) with
      | none => { it with node := none }
      | some y => it.reach y
  | some x, none =>
    (after m x).map fun rest =>
      match rest with
      | [] => nextBucket m it
      | y :: _ => it.reach y
  | none, some key =>
    if m.buckets = [] then some it
    else
      let it := { it with bucketIdx := bucketIdx m.buckets.length (K.hash key).toNat }
      match mapGetRef m key with
      | none => some it
      | some x => some (it.reach x)
  | none, none => some (nextBucket m it)

end Maps

/-- A map, the next free address, an iterator over the map and the nodes it has come to. -/
structure State (K : Keys κ) (ν : Type) where
  map : HashMap K ν := ChainMap.empty
  fresh : Nat := 0
  iter : Iter κ ν := mapIter
  visited : List (MapNode κ ν) := []

/-- A call.  `memory` says that the allocations of a call succeed. -/
inductive Event (κ ν : Type)
  | append (key : κ) (value : ν) (memory : Bool)
  | insert (key : κ) (value : ν) (memory : Bool)
  | remove (key : κ)
  /-- `map_iter`, and the first `map_next` -/
  | start
  /-- `map_key_iter`, and the first `map_next` -/
  | startKey (key : κ)
  | next
  | erase

namespace State

variable {K : Keys κ}

/-- `map_add`: nothing changes when there is no memory. -/
def mapAdd (s : State K ν) (key : κ) (value : ν) (memory append : Bool) : State K ν :=
  if memory then
    { s with map := s.map.add ⟨s.fresh, key, value⟩ append, fresh := s.fresh + 1 }
  else s

variable [DecidableEq κ] [DecidableEq ν]

/-- `map_next` with the iterator. -/
def advance (s : State K ν) : Option (State K ν) :=
  (mapNext s.map s.iter).map fun it =>
    { s with iter := it, visited := s.visited ++ it.node.toList }

/-- `map_erase` with the iterator; `none` when it runs out of the chain. -/
def mapErase (s : State K ν) : Option (State K ν) :=
  match s.iter.node with
  | none => some s
  | some x =>
    if x ∈ s.map.buckets.getD s.iter.bucketIdx.toNat [] then
      s.advance.map fun s' => { s' with map := s.map.erase x }
    else none

/-- A call; `none` when it goes wrong. -/
def step (s : State K ν) : Event κ ν → Option (State K ν)
  | .append key value memory => some (s.mapAdd key value memory true)
  | .insert key value memory => some (s.mapAdd key value memory false)
  | .remove key =>
    some { s with map := s.map.remove (K.hash key).toNat fun x => K.same x.key key }
  | .start => { s with iter := mapIter, visited := [] }.advance
  | .startKey key => { s with iter := mapKeyIter key, visited := [] }.advance
  | .next => s.advance
  | .erase => s.mapErase

end State

/-! ### The nodes of a key -/

section Maps

variable {K : Keys κ}

def nodesOf (m : HashMap K ν) (key : κ) : List (MapNode κ ν) :=
  (m.withHash (K.hash key).toNat).filter fun x => K.same x.key key

def IsOf (K : Keys κ) (key : κ) (x : MapNode κ ν) : Prop :=
  K.hash x.key = K.hash key ∧ K.same x.key key = true

instance (K : Keys κ) (key : κ) (x : MapNode κ ν) : Decidable (IsOf K key x) :=
  inferInstanceAs (Decidable (_ ∧ _))

variable {x : MapNode κ ν} {m : HashMap K ν}

theorem mem_nodesOf {key : κ} :
    x ∈ nodesOf m key ↔ x ∈ m.nodes ∧ IsOf K key x := by
  rw [nodesOf, mem_filter, ChainMap.mem_withHash, and_assoc, Keys.nodeHash, UInt32.toNat_inj]
  rfl

theorem nodesOf_eq_filter (m : HashMap K ν) (key : κ) : nodesOf m key =
    (chainOf m.buckets (K.hash key).toNat).filter
      (hasKey K.nodeHash (K.hash key).toNat fun x => K.same x.key key) := by
  rw [nodesOf, ChainMap.withHash, Sandboxie.nodesOf, filter_filter]
  refine filter_congr fun x _ => ?_
  rw [hasKey, hasHash, Bool.and_comm]

theorem same_congr {q key : κ} (h : K.same q key = true) (k : κ) :
    K.same k q = K.same k key := by
  rw [Bool.eq_iff_iff]
  exact ⟨fun h' => K.equiv.trans h' h, fun h' => K.equiv.trans h' (K.equiv.symm h)⟩

theorem nodesOf_append (m : HashMap K ν) (x : MapNode κ ν) (key : κ) :
    nodesOf (m.add x true) key =
      if IsOf K key x then nodesOf m key ++ [x] else nodesOf m key := by
  have hhash : K.nodeHash x = (K.hash key).toNat ↔ K.hash x.key = K.hash key := UInt32.toNat_inj
  unfold nodesOf
  rw [ChainMap.withHash_add, if_pos rfl]
  by_cases h : K.hash x.key = K.hash key
  · rw [if_pos (hhash.mpr h), filter_append]
    by_cases hsame : K.same x.key key = true
    · have hself : [x].filter (fun x => K.same x.key key) = [x] := filter_cons_of_pos hsame
      rw [if_pos ⟨h, hsame⟩, hself]
    · have hself : [x].filter (fun x => K.same x.key key) = [] := filter_cons_of_neg hsame
      rw [if_neg fun hx => hsame hx.2, hself, append_nil]
  · rw [if_neg (mt hhash.mp h), if_neg fun hx => h hx.1]

theorem mem_bucket_iff (hx : x ∈ m.nodes) (i : Nat) :
    x ∈ m.buckets.getD i [] ↔ i = bucketIdx m.buckets.length (K.nodeHash x) := by
  refine ⟨fun h => ?_, fun h => ?_⟩
  · rw [getD_eq_getElem?_getD] at h
    cases hi : m.buckets[i]? with
    | none =>
      rw [hi] at h
      cases h
    | some b =>
      rw [hi] at h
      exact (m.placed i b hi x h).symm
  · rw [h]
    exact (mem_filter.mp (ChainMap.mem_nodes.mp hx)).1

variable [DecidableEq κ] [DecidableEq ν]

theorem nodesOf_erase (m : HashMap K ν) (x : MapNode κ ν) (key : κ) :
    nodesOf (m.erase x) key = (nodesOf m key).erase x := by
  unfold nodesOf
  rw [ChainMap.withHash_erase]
  by_cases h : K.nodeHash x = (K.hash key).toNat
  · rw [if_pos h, erase_filter]
  · rw [if_neg h, erase_of_not_mem]
    intro hmem
    exact h (ChainMap.mem_withHash.mp (mem_filter.mp hmem).1).2

theorem count_nodes (m : HashMap K ν) (x : MapNode κ ν) :
    m.nodes.count x = (m.withHash (K.nodeHash x)).count x := by
  rw [← ChainMap.filter_nodes, count_filter (hasHash_iff.mpr rfl)]

theorem after_eq (hx : x ∈ m.nodes) :
    ∃ pre rest, chainOf m.buckets (K.nodeHash x) = pre ++ x :: rest ∧ after m x = some rest := by
  have hchain : x ∈ chainOf m.buckets (K.nodeHash x) :=
    (mem_filter.mp (ChainMap.mem_nodes.mp hx)).1
  obtain ⟨pre, rest, hsplit, hpre⟩ := eq_append_cons_of_mem hchain
  refine ⟨pre, rest, hsplit, ?_⟩
  have hdrop : (pre ++ x :: rest).dropWhile (· ≠ x) = x :: rest := by
    rw [dropWhile_append_of_pos, dropWhile_cons_of_neg (by simp)]
    intro y hy
    exact decide_eq_true fun heq => hpre (heq ▸ hy)
  unfold after
  rw [hsplit, hdrop]

theorem mapNext_keyed {it : Iter κ ν} {key q : κ}
    {l r : List (MapNode κ ν)} (hnodup : (nodesOf m key).Nodup) (hnode : it.node = some x)
    (hquery : it.query = some q) (hq : K.same q key = true) (hl : nodesOf m key = l ++ x :: r) :
    mapNext m it = some (match r with
      | [] => { it with node := none }
      | y :: _ => it.reach y) := by
  have hmem : x ∈ nodesOf m key := hl ▸ mem_append_right _ mem_cons_self
  obtain ⟨hx, hhash, hsame⟩ := mem_nodesOf.mp hmem
  obtain ⟨pre, rest, hchain, hafter⟩ := after_eq hx
  have hkey : K.nodeHash x = (K.hash key).toNat := congrArg UInt32.toNat hhash
  have hself : hasKey K.nodeHash (K.hash key).toNat (fun y => K.same y.key key) x = true :=
    hasKey_iff.mpr ⟨hkey, hsame⟩
  -- the nodes of the key behind `x`, in the chain and in the list
  have hr : rest.filter (hasKey K.nodeHash (K.hash key).toNat fun y => K.same y.key key) = r := by
    have hboth := nodesOf_eq_filter m key
    rw [← hkey, hchain, hkey, filter_append, filter_cons_of_pos hself, hl] at hboth
    rw [hl] at hnodup
    have hout := nodup_append.mp hnodup
    have hnotl : x ∉ l := fun h => hout.2.2 x h x mem_cons_self rfl
    have hnotr : x ∉ r := (nodup_cons.mp hout.2.1).1
    exact ((append_cons_inj_of_notMem hnotl hnotr).mp hboth).2.2.symm
  have hfind : rest.find? (hasKey K.nodeHash (K.nodeHash x) fun y => K.same y.key q) =
      r.head? := by
    have hsameq : (fun y : MapNode κ ν => K.same y.key q) = fun y => K.same y.key key :=
      funext fun y => same_congr hq y.key
    rw [hsameq, hkey, ← hr, head?_filter]
  unfold mapNext
  rw [hnode, hquery]
  dsimp only
  rw [hafter, Option.map_some, hfind]
  cases r with
  | nil => rfl
  | cons y r => rfl

end Maps

/-! ### What a call does to the map -/

namespace State

variable {K : Keys κ}

/-- The node was there before the address `fresh` was given. -/
def isOld (fresh : Nat) (x : MapNode κ ν) : Bool := x.id < fresh

/-- The nodes have different addresses, and the next one is free. -/
structure Inv (s : State K ν) : Prop where
  nodup : ∀ h, (s.map.withHash h).Nodup
  lt : ∀ x ∈ s.map.nodes, x.id < s.fresh

theorem Inv.notin {s : State K ν} (h : s.Inv) {x : MapNode κ ν} (hx : x.id = s.fresh) :
    x ∉ s.map.nodes := fun hmem => Nat.lt_irrefl _ (hx ▸ h.lt x hmem)

theorem inv_empty : ({} : State K ν).Inv := ⟨fun _ => nodup_nil, nofun⟩

theorem Inv.nodesOf_nodup {s : State K ν} (hs : s.Inv) (key : κ) : (nodesOf s.map key).Nodup :=
  (hs.nodup _).filter _

variable [DecidableEq κ] [DecidableEq ν] {s s' : State K ν}

theorem advance_map (h : s.advance = some s') :
    s'.map = s.map ∧ s'.fresh = s.fresh := by
  obtain ⟨it, -, rfl⟩ := Option.map_eq_some_iff.mp h
  exact ⟨rfl, rfl⟩

variable {e : Event κ ν}

theorem step_takes (h : s.step e = some s')
    (happend : ∀ key value memory, e ≠ .append key value memory)
    (hinsert : ∀ key value memory, e ≠ .insert key value memory) :
    (∀ k, (s'.map.withHash k).Sublist (s.map.withHash k)) ∧ s'.fresh = s.fresh := by
  have hsame : s'.map = s.map ∧ s'.fresh = s.fresh →
      (∀ k, (s'.map.withHash k).Sublist (s.map.withHash k)) ∧ s'.fresh = s.fresh :=
    fun hm => ⟨fun _ => by rw [hm.1], hm.2⟩
  cases e with
  | append key value memory => exact absurd rfl (happend key value memory)
  | insert key value memory => exact absurd rfl (hinsert key value memory)
  | remove key =>
    cases h
    refine ⟨fun k => ?_, rfl⟩
    rw [ChainMap.withHash_remove]
    split
    · exact eraseP_sublist
    · exact List.Sublist.refl _
  | start =>
    exact hsame (advance_map (s := { s with iter := mapIter, visited := [] }) h)
  | startKey key =>
    exact hsame (advance_map (s := { s with iter := mapKeyIter key, visited := [] }) h)
  | next => exact hsame (advance_map h)
  | erase =>
    have herase : s.mapErase = some s' := h
    unfold mapErase at herase
    split at herase
    · cases herase
      exact ⟨fun _ => List.Sublist.refl _, rfl⟩
    split at herase
    · obtain ⟨s'', hs'', rfl⟩ := Option.map_eq_some_iff.mp herase
      refine ⟨fun k => ?_, (advance_map hs'').2⟩
      rw [ChainMap.withHash_erase]
      split
      · exact erase_sublist
      · exact List.Sublist.refl _
    · exact nomatch herase

theorem step_map (h : s.step e = some s') :
    ((∀ k, (s'.map.withHash k).Sublist (s.map.withHash k)) ∧ s'.fresh = s.fresh) ∨
      ∃ x append, x.id = s.fresh ∧ s'.map = s.map.add x append ∧ s'.fresh = s.fresh + 1 := by
  have hadd : ∀ {key value memory append}, s.mapAdd key value memory append = s' →
      ((∀ k, (s'.map.withHash k).Sublist (s.map.withHash k)) ∧ s'.fresh = s.fresh) ∨
        ∃ x append, x.id = s.fresh ∧ s'.map = s.map.add x append ∧ s'.fresh = s.fresh + 1 := by
    intro key value memory append hs'
    cases memory with
    | true =>
      obtain rfl := hs'
      exact .inr ⟨_, append, rfl, rfl, rfl⟩
    | false =>
      obtain rfl := hs'
      exact .inl ⟨fun _ => List.Sublist.refl _, rfl⟩
  cases e with
  | append key value memory => exact hadd (Option.some.inj h)
  | insert key value memory => exact hadd (Option.some.inj h)
  | remove key => exact .inl (step_takes h nofun nofun)
  | start => exact .inl (step_takes h nofun nofun)
  | startKey key => exact .inl (step_takes h nofun nofun)
  | next => exact .inl (step_takes h nofun nofun)
  | erase => exact .inl (step_takes h nofun nofun)

theorem Inv.step (hs : s.Inv) (h : s.step e = some s') :
    s'.Inv := by
  rcases step_map h with ⟨hsub, hfresh⟩ | ⟨x, append, hx, hmap, hfresh⟩
  · refine ⟨fun k => (hs.nodup k).sublist (hsub k), fun y hy => ?_⟩
    rw [hfresh]
    exact hs.lt y (ChainMap.mem_nodes.mpr ((hsub _).subset (ChainMap.mem_nodes.mp hy)))
  have hnot : ∀ k, x ∉ s.map.withHash k := fun k hmem =>
    hs.notin hx (ChainMap.mem_withHash.mp hmem).1
  refine ⟨fun k => ?_, fun y hy => ?_⟩
  · rw [hmap, ChainMap.withHash_add]
    split
    · cases append with
      | true =>
        rw [if_pos rfl]
        rw [← concat_eq_append]
        exact List.Nodup.concat (hnot k) (hs.nodup k)
      | false =>
        rw [if_neg (by decide)]
        exact nodup_cons.mpr ⟨hnot k, hs.nodup k⟩
    · exact hs.nodup k
  · rw [hmap, ChainMap.mem_nodes_add] at hy
    rw [hfresh]
    rcases hy with hy | rfl
    · exact Nat.lt_succ_of_lt (hs.lt y hy)
    · exact hx ▸ Nat.lt_succ_self _

theorem order_step (h : s.step e = some s') (k : Nat) :
    ((s'.map.withHash k).filter (isOld s.fresh)).Sublist (s.map.withHash k) ∧
      s.fresh ≤ s'.fresh := by
  rcases step_map h with ⟨hsub, hfresh⟩ | ⟨x, append, hx, hmap, hfresh⟩
  · exact ⟨filter_sublist.trans (hsub k), Nat.le_of_eq hfresh.symm⟩
  refine ⟨?_, hfresh ▸ Nat.le_succ _⟩
  have hnew : ¬ isOld s.fresh x = true := fun hold =>
    Nat.lt_irrefl _ (hx ▸ of_decide_eq_true hold)
  have hself : [x].filter (isOld s.fresh) = [] := filter_cons_of_neg hnew
  rw [hmap, ChainMap.withHash_add]
  split
  · cases append with
    | true =>
      rw [if_pos rfl, filter_append, hself, append_nil]
      exact filter_sublist
    | false =>
      rw [if_neg (by decide), filter_cons_of_neg hnew]
      exact filter_sublist
  · exact filter_sublist

theorem order_run {meets : State K ν → Event κ ν → Prop}
    {es : List (Event κ ν)} (h : Run (fun s e s' => s.step e = some s') meets s es s') (k : Nat) :
    ((s'.map.withHash k).filter (isOld s.fresh)).Sublist (s.map.withHash k) := by
  induction h with
  | nil => exact filter_sublist
  | @cons s s₁ s' e es hstep _ _ ih =>
    obtain ⟨hsub, hle⟩ := order_step hstep k
    have hsplit : ((s'.map.withHash k).filter (isOld s.fresh)) =
        ((s'.map.withHash k).filter (isOld s₁.fresh)).filter (isOld s.fresh) := by
      rw [filter_filter]
      refine filter_congr fun x _ => ?_
      rw [isOld, isOld, Bool.eq_iff_iff, Bool.and_eq_true, decide_eq_true_iff,
        decide_eq_true_iff]
      omega
    rw [hsplit]
    exact (ih.filter _).trans hsub

/-! ### A walk over a key -/

def inPlace (s : State K ν) : Bool :=
  s.iter.node.all fun x =>
    s.iter.bucketIdx.toNat == bucketIdx s.map.buckets.length (K.nodeHash x)

def inWalk : Event κ ν → Bool
  | .append .. => true
  | .next => true
  | .erase => true
  | _ => false

/-- The walk is not at its end, and `map_erase` finds its node in the bucket. -/
def meets (s : State K ν) (e : Event κ ν) : Bool :=
  inWalk e && s.iter.node.isSome &&
    match e with
    | .erase => s.inPlace
    | _ => true

/-- Where a walk over a key stands that began with the nodes `start`.  Those behind its node `x`
are still to come. -/
inductive Walks (start : List (MapNode κ ν)) (key : κ) (s : State K ν) : Prop
  | done (hnode : s.iter.node = none) (rest : List (MapNode κ ν))
      (hvisited : s.visited = start ++ rest) (hnodup : s.visited.Nodup) : Walks start key s
  | here (x : MapNode κ ν) (l r rest : List (MapNode κ ν)) (q : κ) (hnode : s.iter.node = some x)
      (hquery : s.iter.query = some q) (hq : K.same q key = true)
      (hlist : nodesOf s.map key = l ++ x :: r) (hvisited : s.visited ++ r = start ++ rest)
      (hnodup : (s.visited ++ r).Nodup) (hlt : ∀ y ∈ s.visited, y.id < s.fresh) :
      Walks start key s

variable {start : List (MapNode κ ν)} {key : κ}

theorem walks_start (hs : s.Inv) (h : s.step (.startKey key) = some s') :
    Walks (nodesOf s.map key) key s' := by
  obtain ⟨it, hit, rfl⟩ := Option.map_eq_some_iff.mp
    (show (mapNext s.map (mapKeyIter key)).map _ = some s' from h)
  by_cases hnil : s.map.buckets = []
  · have hnone : nodesOf s.map key = [] := by
      rw [nodesOf_eq_filter, hnil]
      rfl
    have hiter : mapNext s.map (mapKeyIter key) = some (mapKeyIter key) := if_pos hnil
    obtain rfl := Option.some.inj (hit.symm.trans hiter)
    exact .done rfl [] (by rw [hnone]; rfl) nodup_nil
  · have hget : mapGetRef s.map key = (nodesOf s.map key).head? := by
      rw [mapGetRef, ChainMap.get_eq, nodesOf, head?_filter]
    have hiter := hit
    unfold mapNext at hiter
    dsimp only [mapKeyIter] at hiter
    rw [if_neg hnil, hget] at hiter
    cases hlist : nodesOf s.map key with
    | nil =>
      rw [hlist] at hiter
      cases hiter
      exact .done rfl [] rfl nodup_nil
    | cons x r =>
      rw [hlist] at hiter
      cases hiter
      have hx : x ∈ nodesOf s.map key := hlist ▸ mem_cons_self
      obtain ⟨hmem, -, hsame⟩ := mem_nodesOf.mp hx
      refine .here x [] r [] x.key rfl rfl hsame hlist ?_ ?_ ?_
      · exact (append_nil _).symm
      · have hall : (x :: r).Nodup := hlist ▸ hs.nodesOf_nodup key
        exact hall
      · intro y hy
        rw [mem_singleton.mp hy]
        exact hs.lt x hmem

theorem walks_next {x : MapNode κ ν} {l r rest : List (MapNode κ ν)} {q : κ}
    (hs : s.Inv) (hnode : s.iter.node = some x) (hquery : s.iter.query = some q)
    (hq : K.same q key = true) (hlist : nodesOf s.map key = l ++ x :: r)
    (hvisited : s.visited ++ r = start ++ rest) (hnodup : (s.visited ++ r).Nodup)
    (hlt : ∀ y ∈ s.visited, y.id < s.fresh) (h : s.advance = some s') :
    Walks start key s' ∧ Walks start key { s' with map := s.map.erase x } := by
  obtain ⟨it, hit, rfl⟩ := Option.map_eq_some_iff.mp h
  have hmap := mapNext_keyed (hs.nodesOf_nodup key) hnode hquery hq hlist
  obtain rfl := Option.some.inj (hit.symm.trans hmap)
  cases r with
  | nil =>
    rw [append_nil] at hvisited hnodup
    have hdone : s.visited ++ [] = start ++ rest := by rw [append_nil, hvisited]
    have hdone' : (s.visited ++ []).Nodup := by rw [append_nil]; exact hnodup
    exact ⟨.done rfl rest hdone hdone', .done rfl rest hdone hdone'⟩
  | cons y r =>
    have hy : y ∈ nodesOf s.map key := by
      rw [hlist]
      exact mem_append_right _ (mem_cons_of_mem _ mem_cons_self)
    obtain ⟨hmem, -, hsame⟩ := mem_nodesOf.mp hy
    have hquery' : (s.iter.reach y).query = some y.key := by
      unfold Iter.reach
      rw [hquery]
      rfl
    have hcons : s.visited ++ [y] ++ r = s.visited ++ y :: r := by
      rw [append_assoc, singleton_append]
    have hlt' : ∀ z ∈ s.visited ++ [y], z.id < s.fresh := by
      intro z hz
      rcases mem_append.mp hz with hz | hz
      · exact hlt z hz
      · rw [mem_singleton.mp hz]
        exact hs.lt y hmem
    refine ⟨.here y (l ++ [x]) r rest y.key rfl hquery' hsame ?_ ?_ ?_ hlt',
      .here y l r rest y.key rfl hquery' hsame ?_ ?_ ?_ hlt'⟩
    · rw [append_assoc, singleton_append]
      exact hlist
    · exact hcons.trans hvisited
    · exact hcons ▸ hnodup
    · have hnot : x ∉ l := by
        have hall := hlist ▸ hs.nodesOf_nodup key
        exact fun hx => (nodup_append.mp hall).2.2 x hx x mem_cons_self rfl
      show nodesOf (s.map.erase x) key = l ++ y :: r
      rw [nodesOf_erase, hlist, erase_append_right _ hnot, erase_cons_head]
    · exact hcons.trans hvisited
    · exact hcons ▸ hnodup

/-- **A step of a walk.** -/
theorem walks_step (hs : s.Inv) (hw : Walks start key s)
    (hmeets : s.meets e = true) (h : s.step e = some s') : Walks start key s' := by
  cases hw with
  | done hnode =>
    simp [meets, hnode] at hmeets
  | here x l r rest q hnode hquery hq hlist hvisited hnodup hlt =>
    cases e with
    | append k value memory =>
      cases memory with
      | false =>
        cases h
        exact .here x l r rest q hnode hquery hq hlist hvisited hnodup hlt
      | true =>
        cases h
        have hlt' : ∀ y ∈ s.visited, y.id < s.fresh + 1 := fun y hy =>
          Nat.lt_succ_of_lt (hlt y hy)
        have hadd := nodesOf_append s.map ⟨s.fresh, k, value⟩ key
        by_cases hkey : IsOf K key ⟨s.fresh, k, value⟩
        · rw [if_pos hkey] at hadd
          refine .here x l (r ++ [⟨s.fresh, k, value⟩]) (rest ++ [⟨s.fresh, k, value⟩]) q hnode
            hquery hq ?_ ?_ ?_ hlt'
          · exact hadd.trans (by rw [hlist, append_assoc, cons_append])
          · show s.visited ++ (r ++ _) = _
            rw [← append_assoc, hvisited, append_assoc]
          show (s.visited ++ (r ++ _)).Nodup
          rw [← append_assoc, ← concat_eq_append]
          refine List.Nodup.concat (fun hmem => ?_) hnodup
          rcases mem_append.mp hmem with hmem | hmem
          · exact Nat.lt_irrefl _ (hlt _ hmem)
          · have hin : (⟨s.fresh, k, value⟩ : MapNode κ ν) ∈ nodesOf s.map key := by
              rw [hlist]
              exact mem_append_right _ (mem_cons_of_mem _ hmem)
            exact hs.notin rfl (mem_nodesOf.mp hin).1
        · rw [if_neg hkey] at hadd
          exact .here x l r rest q hnode hquery hq (hadd.trans hlist) hvisited hnodup hlt'
    | next => exact (walks_next hs hnode hquery hq hlist hvisited hnodup hlt h).1
    | erase =>
      have herase : s.mapErase = some s' := h
      unfold mapErase at herase
      rw [hnode] at herase
      dsimp only at herase
      split at herase
      · obtain ⟨s'', hs'', rfl⟩ := Option.map_eq_some_iff.mp herase
        exact (walks_next hs hnode hquery hq hlist hvisited hnodup hlt hs'').2
      · exact nomatch herase
    | insert k value memory => exact nomatch hmeets
    | remove k => exact nomatch hmeets
    | start => exact nomatch hmeets
    | startKey k => exact nomatch hmeets

/-- **A call of a walk goes wrong** exactly when the node of `map_erase` is in another bucket. -/
theorem step_isSome_iff {s : State K ν} (hs : s.Inv) (hw : Walks start key s)
    (hwalk : inWalk e = true) (hnode : s.iter.node.isSome = true) :
    (s.step e).isSome = true ↔ s.meets e = true := by
  cases hw with
  | done hnone =>
    rw [hnone] at hnode
    exact nomatch hnode
  | here x l r rest q hx hquery hq hlist =>
    have hadvance : s.advance.isSome = true := by
      rw [advance, mapNext_keyed (hs.nodesOf_nodup key) hx hquery hq hlist]
      rfl
    cases e with
    | append k value memory => exact iff_of_true rfl (by simp [meets, inWalk, hnode])
    | next => exact iff_of_true hadvance (by simp [meets, inWalk, hnode])
    | erase =>
      have hmem : x ∈ nodesOf s.map key := by
        rw [hlist]
        exact mem_append_right _ mem_cons_self
      have hplace : s.meets .erase = true ↔
          s.iter.bucketIdx.toNat = bucketIdx s.map.buckets.length (K.nodeHash x) := by
        simp [meets, inWalk, inPlace, hx]
      rw [hplace, ← mem_bucket_iff (mem_nodesOf.mp hmem).1]
      show s.mapErase.isSome = true ↔ _
      unfold mapErase
      rw [hx]
      dsimp only
      split
      · rename_i hin
        exact iff_of_true (by rw [Option.isSome_map]; exact hadvance) hin
      · rename_i hout
        exact iff_of_false nofun hout
    | insert k value memory => exact nomatch hwalk
    | remove k => exact nomatch hwalk
    | start => exact nomatch hwalk
    | startKey k => exact nomatch hwalk

abbrev Steps (K : Keys κ) (ν : Type) [DecidableEq ν] (s : State K ν) (e : Event κ ν)
    (s' : State K ν) : Prop := s.step e = some s'

theorem inv_run {meets : State K ν → Event κ ν → Prop}
    {es : List (Event κ ν)} (h : Run (Steps K ν) meets s es s') (hs : s.Inv) : s'.Inv :=
  h.invariant hs fun hs hstep _ => hs.step hstep

theorem walks_run {es : List (Event κ ν)} (hs : s.Inv)
    (hw : Walks start key s) (h : Run (Steps K ν) (fun s e => s.meets e = true) s es s') :
    Walks start key s' :=
  (h.invariant (I := fun s => s.Inv ∧ Walks start key s) ⟨hs, hw⟩ fun hi hstep hmeets =>
    ⟨hi.1.step hstep, walks_step hi.1 hi.2 hmeets hstep⟩).2

/-- **Iterations are stable.**  Of a map that any calls have built: whatever is called next, the
nodes of a key keep their order; a new table has the same nodes, and those of a key in the same
order; and a walk over a key in which `map_erase` finds its node comes to the nodes of its
beginning first, in their order, and to no node twice.  A call of such a walk goes wrong exactly
when it is a `map_erase` whose node is in another bucket than the iterator. -/
theorem map_iteration {s₀ : State K ν} {es₀ : List (Event κ ν)}
    (h₀ : Run (Steps K ν) (fun _ _ => True) {} es₀ s₀) :
    (∀ es s, Run (Steps K ν) (fun _ _ => True) s₀ es s → ∀ key,
      ((nodesOf s.map key).filter (· ∈ s₀.map.nodes)).Sublist (nodesOf s₀.map key)) ∧
    (s₀.map.grow.nodes.Perm s₀.map.nodes ∧
      ∀ key, nodesOf s₀.map.grow key = nodesOf s₀.map key) ∧
    ∀ key s₁ es s, s₀.step (.startKey key) = some s₁ →
      Run (Steps K ν) (fun s e => s.meets e = true) s₁ es s →
        (s.iter.node = none →
          ∃ rest, s.visited = nodesOf s₀.map key ++ rest ∧ s.visited.Nodup) ∧
        ∀ e, inWalk e = true → s.iter.node.isSome = true →
          ((s.step e).isSome = true ↔ s.meets e = true) := by
  have hs₀ : s₀.Inv := inv_run h₀ inv_empty
  refine ⟨fun es s h key => ?_, ⟨?_, fun key => ?_⟩, fun key s₁ es s hstart h => ?_⟩
  · have hold : ((nodesOf s.map key).filter (isOld s₀.fresh)).Sublist (nodesOf s₀.map key) := by
      have horder := (order_run h (K.hash key).toNat).filter fun x => K.same x.key key
      rw [filter_filter] at horder
      unfold nodesOf
      rw [filter_filter]
      have hcomm : ∀ x ∈ s.map.withHash (K.hash key).toNat,
          (isOld s₀.fresh x && K.same x.key key) = (K.same x.key key && isOld s₀.fresh x) :=
        fun x _ => Bool.and_comm _ _
      rw [filter_congr hcomm]
      exact horder
    refine (monotone_filter_right _ fun x hx => ?_).trans hold
    exact decide_eq_true (hs₀.lt x (of_decide_eq_true hx))
  · refine perm_iff_count.mpr fun x => ?_
    rw [count_nodes, count_nodes, ChainMap.withHash_grow]
  · rw [nodesOf, ChainMap.withHash_grow]
    rfl
  · have hs₁ : s₁.Inv := hs₀.step hstart
    have hw : Walks (nodesOf s₀.map key) key s := walks_run hs₁ (walks_start hs₀ hstart) h
    refine ⟨fun hnode => ?_, fun e hwalk hnode => step_isSome_iff (inv_run h hs₁) hw hwalk hnode⟩
    cases hw with
    | done _ rest hvisited hnodup => exact ⟨rest, hvisited, hnodup⟩
    | here x l r rest q hx => exact nomatch hnode.symm.trans hx

def natKeys : Keys Nat where
  hash := UInt32.ofNat
  same a b := a == b
  equiv := ⟨fun a => beq_self_eq_true a, fun h => beq_iff_eq.mpr (beq_iff_eq.mp h).symm,
    fun h h' => beq_iff_eq.mpr ((beq_iff_eq.mp h).trans (beq_iff_eq.mp h'))⟩

def twoNodes : List (Event Nat Nat) := [.append 1 0 true, .append 1 1 true]

def resizedWalk : List (Event Nat Nat) := [.erase, .append 2 2 true, .append 3 3 true, .next]

theorem map_iteration_resized : ∃ s₀ s₁ s : State natKeys Nat,
    Run (Steps natKeys Nat) (fun _ _ => True) {} twoNodes s₀ ∧
      s₀.step (.startKey 1) = some s₁ ∧
      Run (Steps natKeys Nat) (fun s e => s.meets e = true) s₁ resizedWalk s ∧
      ∃ rest, s.visited = nodesOf s₀.map 1 ++ rest ∧ s.visited.Nodup := by
  obtain ⟨s₀, hs₀, hrest⟩ := Option.bind_eq_some_iff.mp
    (show ((Run.checked State.step (fun _ _ => True) ({} : State natKeys Nat) twoNodes).bind
      fun s₀ => (s₀.step (.startKey 1)).bind fun s₁ =>
        (Run.checked State.step (fun s e => s.meets e = true) s₁ resizedWalk).bind fun s =>
          if s.iter.node = none then some () else none) = some () by decide +kernel)
  obtain ⟨s₁, hs₁, hrest⟩ := Option.bind_eq_some_iff.mp hrest
  obtain ⟨s, hs, hend⟩ := Option.bind_eq_some_iff.mp hrest
  have hnode : s.iter.node = none := by
    by_contra hsome
    rw [if_neg hsome] at hend
    exact nomatch hend
  have hrun₀ := Run.of_checked hs₀
  have hrun := Run.of_checked hs
  exact ⟨s₀, s₁, s, hrun₀, hs₁, hrun, ((map_iteration hrun₀).2.2 1 s₁ _ s hs₁ hrun).1 hnode⟩

def movedWalk : List (Event Nat Nat) :=
  [.append 1 0 true, .startKey 1, .append 2 2 true, .append 3 3 true]

/-- Then `map_erase` looks for the node in the bucket where it was, and goes wrong. -/
theorem erase_after_resize : ∃ s : State natKeys Nat,
    Run (Steps natKeys Nat) (fun _ _ => True) {} movedWalk s ∧
      s.iter.node = some ⟨0, 1, 0⟩ ∧ s.step .erase = none := by
  obtain ⟨s, hs, hend⟩ := Option.map_eq_some_iff.mp
    (show (Run.checked State.step (fun _ _ => True) ({} : State natKeys Nat) movedWalk).map
      (fun s => decide (s.iter.node = some ⟨0, 1, 0⟩) && (s.step .erase).isNone) = some true by
        decide +kernel)
  rw [Bool.and_eq_true] at hend
  exact ⟨s, Run.of_checked hs, of_decide_eq_true hend.1, Option.isNone_iff_eq_none.mp hend.2⟩

end State

end Sandboxie.MapIter
