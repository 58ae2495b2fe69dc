import Sandboxie.Common.MapIter
import Sandboxie.Common.PoolReturn

/-!
# The memory of a map

Every node and every table of a map of `common/map.c` is taken with `map_alloc` and given back
with `map_free`.  A run of a map's operations is followed with the blocks that go back to the
pool, each with the size it was taken with and the size that it is given back with.

A map without a pool never gets memory, and with a pool `map_alloc` writes to what it gets
without a look; so a run goes on as long as the requests are granted.
-/

namespace Sandboxie.MapMemory

open MapIter PoolAlloc List

/-- Memory of `map_alloc`: the bytes that the pool was asked for, and the word in front. -/
structure Chunk where
  taken : Nat
  word : Nat
deriving DecidableEq, Repr

/-- `map_alloc`; `sizeofSizeT` is the size of the word. -/
def mapAlloc (sizeofSizeT size : Nat) : Chunk := { taken := sizeofSizeT + size, word := size }

/-- `map_free` gives the block back with the word in front of it. -/
def mapFree (c : Chunk) : Return := { taken := c.taken, given := c.word }

/-- A map: the sizes of a pointer and of its keys, and how it finds them. -/
structure Kind (κ : Type) extends Keys κ where
  /-- `sizeof(void*)`, which is `sizeof(size_t)` -/
  pointer : Nat
  /-- `func_key_size`, or the size of a pointer -/
  keySize : κ → Nat

variable {κ : Type}

/-- `voffset`: the keys are padded to whole pointers. -/
def Kind.voffset (K : Kind κ) (key : κ) : Nat :=
  K.keySize key + (K.pointer - K.keySize key % K.pointer) % K.pointer

/-- The size of a node: `sizeof(map_node_t)` is three pointers. -/
def Kind.nodeSize (K : Kind κ) (key : κ) (vsize : Nat) : Nat :=
  3 * K.pointer + K.voffset key + vsize

def Kind.tableSize (K : Kind κ) (nbuckets : Nat) : Nat := K.pointer * nbuckets

/-- A map with the memory of each node, its table and an iterator. -/
structure Memory (K : Kind κ) where
  state : MapIter.State K.toKeys Chunk := {}
  table : Option Chunk := none

inductive Op (κ : Type)
  /-- `map_append` or `map_insert` -/
  | add (key : κ) (vsize : Nat) (append : Bool)
  | resize (nbuckets : Nat) (h : 0 < nbuckets)
  /-- `map_take` or `map_remove` -/
  | take (key : κ)
  | clear
  /-- `map_iter`, and the first `map_next` -/
  | start
  /-- `map_key_iter`, and the first `map_next` -/
  | startKey (key : κ)
  | next
  | erase

namespace Memory

variable {K : Kind κ}

/-- `map_add` replaces the table by a larger one. -/
def grows (s : Memory K) : Bool := s.state.map.nnodes >>> 1 ≥ s.state.map.buckets.length

def freed (s : Memory K) : Op κ → List Chunk
  | .add _ _ _ => if s.grows then s.table.toList else []
  | .resize _ _ => s.table.toList
  | .take key => (mapGetRef s.state.map key).toList.map MapNode.value
  | .clear => s.state.map.nodes.map MapNode.value ++ s.table.toList
  | .erase => s.state.iter.node.toList.map MapNode.value
  | .start | .startKey _ | .next => []

variable [DecidableEq κ]

/-- What a call does to the map; `none` when it goes wrong. -/
def after (s : Memory K) : Op κ → Option (Memory K)
  | .add key vsize append =>
    let state := s.state.mapAdd key (mapAlloc K.pointer (K.nodeSize key vsize)) true append
    let table := mapAlloc K.pointer (K.tableSize state.map.buckets.length)
    some { state := state, table := if s.grows then some table else s.table }
  | .resize nbuckets _ =>
    some
      { state := { s.state with map := s.state.map.resize nbuckets }
        table := some (mapAlloc K.pointer (K.tableSize nbuckets)) }
  | .take key => (s.state.step (.remove key)).map fun state => { s with state := state }
  | .clear => some { state := { s.state with map := ChainMap.empty }, table := none }
  | .start => (s.state.step .start).map fun state => { s with state := state }
  | .startKey key => (s.state.step (.startKey key)).map fun state => { s with state := state }
  | .next => (s.state.step .next).map fun state => { s with state := state }
  | .erase => (s.state.step .erase).map fun state => { s with state := state }

def step (s : Memory K) (op : Op κ) : Option (Memory K × List Return) :=
  (s.after op).map fun s' => (s', (s.freed op).map mapFree)

def run (s : Memory K) : List (Op κ) → Option (Memory K × List Return)
  | [] => some (s, [])
  | op :: ops =>
    (s.step op).bind fun r => (r.1.run ops).map fun r' => (r'.1, r.2 ++ r'.2)

def Meets (L : Layout) (s : Memory K) (op : Op κ) : Prop :=
  ∀ c ∈ s.freed op, Roomy L K.pointer c.word

/-! ### The word in front -/

/-- The memory is as `map_alloc` left it. -/
def Made (K : Kind κ) (c : Chunk) : Prop := c = mapAlloc K.pointer c.word

/-- All memory of a map is as `map_alloc` left it. -/
structure Inv (s : Memory K) : Prop where
  nodes : ∀ x ∈ s.state.map.nodes, Made K x.value
  table : ∀ c ∈ s.table, Made K c

omit [DecidableEq κ] in
theorem made_mapAlloc (size : Nat) : Made K (mapAlloc K.pointer size) := rfl

omit [DecidableEq κ] in
theorem exact_mapFree {L : Layout} {c : Chunk} (hc : Made K c) :
    (mapFree c).Exact L ↔ Roomy L K.pointer c.word := by
  rw [hc]
  exact exact_iff_roomy K.pointer c.word

omit [DecidableEq κ] in
theorem inv_empty : ({} : Memory K).Inv := ⟨nofun, nofun⟩

variable {s s' : Memory K}

theorem Inv.takes (hs : s.Inv) {e : Event κ Chunk}
    (h : ((s.state.step e).map fun state => ({ s with state := state } : Memory K)) = some s')
    (happend : ∀ key value memory, e ≠ .append key value memory)
    (hinsert : ∀ key value memory, e ≠ .insert key value memory) : s'.Inv := by
  obtain ⟨state, hstate, rfl⟩ := Option.map_eq_some_iff.mp h
  refine ⟨fun x hx => ?_, hs.table⟩
  have hsub := (MapIter.State.step_takes hstate happend hinsert).1 (K.nodeHash x)
  exact hs.nodes x (ChainMap.mem_nodes.mpr (hsub.subset (ChainMap.mem_nodes.mp hx)))

theorem Inv.after {op : Op κ} (hs : s.Inv) (h : s.after op = some s') :
    s'.Inv := by
  cases op with
  | add key vsize append =>
    cases h
    refine ⟨fun x hx => ?_, fun c hc => ?_⟩
    · rcases ChainMap.mem_nodes_add.mp hx with hold | rfl
      · exact hs.nodes x hold
      · exact made_mapAlloc _
    · dsimp only at hc
      split at hc
      · obtain rfl := Option.mem_some_iff.mp hc
        exact made_mapAlloc _
      · exact hs.table c hc
  | resize nbuckets hpos =>
    cases h
    refine ⟨fun x hx => hs.nodes x ?_, fun c hc => ?_⟩
    · rw [ChainMap.mem_nodes] at hx ⊢
      rwa [ChainMap.withHash_resize _ hpos] at hx
    · obtain rfl := Option.mem_some_iff.mp hc
      exact made_mapAlloc _
  | take key => exact hs.takes (e := .remove key) h nofun nofun
  | clear =>
    cases h
    exact ⟨nofun, nofun⟩
  | start => exact hs.takes (e := .start) h nofun nofun
  | startKey key => exact hs.takes (e := .startKey key) h nofun nofun
  | next => exact hs.takes (e := .next) h nofun nofun
  | erase => exact hs.takes (e := .erase) h nofun nofun

theorem Inv.freed {op : Op κ} (hs : s.Inv) (h : s.after op = some s') :
    ∀ c ∈ s.freed op, Made K c := by
  have htable : ∀ c ∈ s.table.toList, Made K c := fun c hc => hs.table c (Option.mem_toList.mp hc)
  intro c hc
  cases op with
  | add key vsize append =>
    rw [Memory.freed] at hc
    split at hc
    · exact htable c hc
    · cases hc
  | resize nbuckets hpos => exact htable c hc
  | take key =>
    obtain ⟨x, hx, rfl⟩ := mem_map.mp hc
    have hget : mapGetRef s.state.map key = some x := Option.mem_toList.mp hx
    rw [mapGetRef, ChainMap.get_eq] at hget
    exact hs.nodes x (ChainMap.mem_withHash.mp (mem_of_find?_eq_some hget)).1
  | clear =>
    rcases mem_append.mp hc with hc | hc
    · obtain ⟨x, hx, rfl⟩ := mem_map.mp hc
      exact hs.nodes x hx
    · exact htable c hc
  | erase =>
    obtain ⟨x, hx, rfl⟩ := mem_map.mp hc
    have hnode : s.state.iter.node = some x := Option.mem_toList.mp hx
    obtain ⟨state, hstate, -⟩ := Option.map_eq_some_iff.mp h
    have herase : s.state.mapErase = some state := hstate
    rw [MapIter.State.mapErase, hnode] at herase
    dsimp only at herase
    split at herase
    · rename_i hin
      refine hs.nodes x (mem_flatten.mpr ⟨_, ?_, hin⟩)
      rw [getD_eq_getElem?_getD] at hin ⊢
      cases hbucket : s.state.map.buckets[s.state.iter.bucketIdx.toNat]? with
      | none =>
        rw [hbucket] at hin
        cases hin
      | some bucket => exact mem_of_getElem? hbucket
    · cases herase
  | start => cases hc
  | startKey key => cases hc
  | next => cases hc

theorem step_exact_iff {L : Layout} {op : Op κ} {rs : List Return}
    (hs : s.Inv) (h : s.step op = some (s', rs)) :
    (∀ r ∈ rs, r.Exact L) ↔ s.Meets L op := by
  obtain ⟨s'', hafter, heq⟩ := Option.map_eq_some_iff.mp h
  cases heq
  rw [forall_mem_map]
  exact forall₂_congr fun c hc => exact_mapFree (hs.freed hafter c hc)

abbrev Steps (K : Kind κ) (s : Memory K) (op : Op κ) (s' : Memory K) : Prop := s.after op = some s'

/-- **The runs of a map's calls** in which everything comes back exactly are those in which
everything given back is roomy. -/
theorem run_exact_iff {L : Layout} {ops : List (Op κ)} {rs : List Return}
    (hs : s.Inv) (h : s.run ops = some (s', rs)) :
    (∀ r ∈ rs, r.Exact L) ↔ Run (Steps K) (Meets L) s ops s' := by
  induction ops generalizing s rs with
  | nil =>
    obtain ⟨rfl, rfl⟩ := Prod.mk.inj (Option.some.inj h)
    exact iff_of_true nofun (.nil s)
  | cons op ops ih =>
    obtain ⟨⟨s₁, rs₁⟩, hstep, hrest⟩ := Option.bind_eq_some_iff.mp h
    obtain ⟨⟨s₂, rs₂⟩, hrun, heq⟩ := Option.map_eq_some_iff.mp hrest
    cases heq
    obtain ⟨s₁', hafter, heq⟩ := Option.map_eq_some_iff.mp hstep
    obtain ⟨rfl, -⟩ := Prod.mk.inj heq
    rw [forall_mem_append, step_exact_iff hs hstep, ih (hs.after hafter) hrun]
    constructor
    · rintro ⟨hmeets, hmore⟩
      exact .cons hafter hmeets hmore
    · intro hall
      cases hall with
      | cons hstep' hmeets hmore =>
        obtain rfl := Option.some.inj (hafter.symm.trans hstep')
        exact ⟨hmeets, hmore⟩

end Memory

end Sandboxie.MapMemory
