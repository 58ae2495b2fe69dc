import Mathlib.Algebra.Order.Ring.Int
import Mathlib.Data.List.Basic
import Mathlib.Data.List.Perm.Basic
import Mathlib.Tactic.Common

/-!
# Programs that take blocks and give them back

A program runs over the blocks that are in use, each with the size it was taken with.  To give
back what is not in use, or with another size, is a fault.  Whether a block can be had, and
everything else that a program is told from outside, depends on a clock that goes on with
each request; so a block is known by the time at which it was taken.

`Does n pre p post` says of a program that starts at the time `n` and holds the blocks `pre`: it
ends without a fault, and the result, the time and the blocks it then holds are as `post` says.
Blocks that others hold are never touched, and have no influence on the result.
-/

namespace Sandboxie.Blocks

open List

/-- The blocks in use, with the time each was taken at and its size. -/
structure Heap where
  live : List (Nat × Nat)
  clock : Nat

abbrev Prog := StateT Heap Option

variable {α β : Type}

def ask (f : Nat → α) : Prog α := fun h => some (f h.clock, { h with clock := h.clock + 1 })

def alloc (grant : Nat → Bool) (size : Nat) : Prog (Option Nat) := fun h =>
  if grant h.clock then
    some (some h.clock, { live := (h.clock, size) :: h.live, clock := h.clock + 1 })
  else some (none, { h with clock := h.clock + 1 })

def free (id size : Nat) : Prog Unit := fun h =>
  if (id, size) ∈ h.live then some ((), { h with live := h.live.erase (id, size) }) else none

theorem erase_pair (a b : Nat × Nat) : [a, b].erase b = [a] := by
  by_cases h : a = b
  · rw [h, erase_cons_head]
  · rw [erase_cons_tail (by simpa using h), erase_cons_head]

theorem erase_second (a b c : Nat × Nat) : [a, b, c].erase b = [a, c] := by
  by_cases h : a = b
  · rw [h, erase_cons_head]
  · rw [erase_cons_tail (by simpa using h), erase_cons_head]

/-- From `n` and the blocks `pre` the program ends as `post` says, whatever else is in use. -/
def Does (n : Nat) (pre : List (Nat × Nat)) (p : Prog α)
    (post : α → Nat → List (Nat × Nat) → Prop) : Prop :=
  ∃ a n' bs, n ≤ n' ∧ post a n' bs ∧
    ∀ others, p ⟨pre ++ others, n⟩ = some (a, ⟨bs ++ others, n'⟩)

namespace Does

variable {n : Nat} {pre : List (Nat × Nat)} {p : Prog α} {f : α → Prog β}
  {post post' : α → Nat → List (Nat × Nat) → Prop}
  {post₂ : β → Nat → List (Nat × Nat) → Prop}

theorem pure {a : α} (h : post a n pre) : Does n pre (Pure.pure a) post :=
  ⟨a, n, pre, Nat.le_refl n, h, fun _ => rfl⟩

theorem bind (hp : Does n pre p post)
    (hf : ∀ a n' bs, n ≤ n' → post a n' bs → Does n' bs (f a) post₂) :
    Does n pre (p >>= f) post₂ := by
  obtain ⟨a, n', bs, hn, hpost, hrun⟩ := hp
  obtain ⟨b, n'', bs', hn', hpost', hrun'⟩ := hf a n' bs hn hpost
  refine ⟨b, n'', bs', Nat.le_trans hn hn', hpost', fun others => ?_⟩
  have hstep : (p >>= f) ⟨pre ++ others, n⟩ = f a ⟨bs ++ others, n'⟩ := by
    change (p ⟨pre ++ others, n⟩).bind _ = _
    rw [hrun others]
    rfl
  rw [hstep]
  exact hrun' others

theorem seq (post : α → Nat → List (Nat × Nat) → Prop) (hp : Does n pre p post)
    (hf : ∀ a n' bs, n ≤ n' → post a n' bs → Does n' bs (f a) post₂) :
    Does n pre (p >>= f) post₂ := hp.bind hf

theorem mono (hp : Does n pre p post)
    (himp : ∀ a n' bs, n ≤ n' → post a n' bs → post' a n' bs) : Does n pre p post' := by
  obtain ⟨a, n', bs, hn, hpost, hrun⟩ := hp
  exact ⟨a, n', bs, hn, himp a n' bs hn hpost, hrun⟩

theorem frame (hp : Does n pre p post) (held : List (Nat × Nat)) :
    Does n (pre ++ held) p fun a n' bs => ∃ bs', bs = bs' ++ held ∧ post a n' bs' := by
  obtain ⟨a, n', bs, hn, hpost, hrun⟩ := hp
  refine ⟨a, n', bs ++ held, hn, ⟨bs, rfl, hpost⟩, fun others => ?_⟩
  rw [append_assoc, append_assoc]
  exact hrun (held ++ others)

theorem ask {g : Nat → α} (h : post (g n) (n + 1) pre) : Does n pre (Blocks.ask g) post :=
  ⟨g n, n + 1, pre, Nat.le_succ n, h, fun _ => rfl⟩

theorem alloc {grant : Nat → Bool} {size : Nat}
    {post : Option Nat → Nat → List (Nat × Nat) → Prop}
    (hyes : grant n = true → post (some n) (n + 1) ((n, size) :: pre))
    (hno : grant n = false → post none (n + 1) pre) :
    Does n pre (Blocks.alloc grant size) post := by
  cases hgrant : grant n with
  | true =>
    refine ⟨some n, n + 1, (n, size) :: pre, Nat.le_succ n, hyes hgrant, fun others => ?_⟩
    rw [Blocks.alloc, if_pos hgrant]
    rfl
  | false =>
    refine ⟨none, n + 1, pre, Nat.le_succ n, hno hgrant, fun others => ?_⟩
    rw [Blocks.alloc, if_neg (by rw [hgrant]; exact Bool.false_ne_true)]

theorem free {id size : Nat} {post : Unit → Nat → List (Nat × Nat) → Prop}
    (hmem : (id, size) ∈ pre) (h : post () n (pre.erase (id, size))) :
    Does n pre (Blocks.free id size) post := by
  refine ⟨(), n, pre.erase (id, size), Nat.le_refl n, h, fun others => ?_⟩
  have hin : (id, size) ∈ pre ++ others := mem_append_left others hmem
  rw [Blocks.free, if_pos hin, erase_append_left others hmem]

end Does

def Quiet (p : Prog α) : Prop := ∀ n, Does n [] p fun _ _ bs => bs = []

namespace Quiet

variable {p q : Prog α} {f : α → Prog β}

theorem does (hp : Quiet p) (n : Nat) (pre : List (Nat × Nat)) :
    Does n pre p fun _ _ bs => bs = pre := by
  refine ((hp n).frame pre).mono ?_
  rintro a n' bs - ⟨bs', rfl, rfl⟩
  rfl

theorem pure (a : α) : Quiet (Pure.pure a) := fun _ => .pure rfl

theorem bind (hp : Quiet p) (hf : ∀ a, Quiet (f a)) : Quiet (p >>= f) := by
  intro n
  refine (hp n).bind ?_
  rintro a n' bs - rfl
  exact hf a n'

theorem ask (g : Nat → α) : Quiet (Blocks.ask g) := fun _ => .ask rfl

theorem ite {c : Prop} [Decidable c] (hp : Quiet p) (hq : Quiet q) :
    Quiet (if c then p else q) := by
  split
  · exact hp
  · exact hq

/-- **The rule for a buffer**: it is used only between its request and its return. -/
theorem buffer {grant : Nat → Bool} {size : Nat} {use : Nat → Prog α} {without : Prog β}
    {after : α → Prog β} (huse : ∀ id, Quiet (use id)) (hwithout : Quiet without)
    (hafter : ∀ a, Quiet (after a)) :
    Quiet (alloc grant size >>= fun block =>
      match block with
      | none => without
      | some id => use id >>= fun a => free id size >>= fun _ => after a) := by
  intro n
  refine Does.seq (fun block _ bs =>
    bs = (block.map fun id => (id, size)).toList) (.alloc (fun _ => rfl) fun _ => rfl) ?_
  rintro (_ | id) n' bs - rfl
  · exact hwithout n'
  · refine ((huse id).does n' [(id, size)]).bind ?_
    rintro a n'' bs - rfl
    refine (@Does.free _ _ _ _ (fun _ _ bs => bs = []) (mem_singleton_self _)
      (erase_cons_head ..)).bind ?_
    rintro - n'' bs - rfl
    exact hafter a n''

end Quiet

/-! ### Faults -/

/-- From `n` and the blocks `pre`, with no others in use, the program comes to a fault. -/
def Faults (n : Nat) (pre : List (Nat × Nat)) (p : Prog α) : Prop := p ⟨pre, n⟩ = none

namespace Faults

variable {n : Nat} {pre : List (Nat × Nat)} {p : Prog α} {f : α → Prog β}
  {post : α → Nat → List (Nat × Nat) → Prop}

theorem free {id size : Nat} (h : (id, size) ∉ pre) : Faults n pre (Blocks.free id size) := if_neg h

theorem bind (hp : Faults n pre p) : Faults n pre (p >>= f) := by
  change (p ⟨pre, n⟩).bind _ = none
  rw [hp]
  rfl

theorem bind_after (hp : Does n pre p post)
    (hf : ∀ a n' bs, n ≤ n' → post a n' bs → Faults n' bs (f a)) : Faults n pre (p >>= f) := by
  obtain ⟨a, n', bs, hn, hpost, hrun⟩ := hp
  have hrun₀ := hrun []
  rw [append_nil, append_nil] at hrun₀
  change (p ⟨pre, n⟩).bind _ = none
  rw [hrun₀]
  exact hf a n' bs hn hpost

end Faults

/-- Whatever blocks are in use at the time `n`, the program comes to no fault. -/
def Clean (p : Prog α) (n : Nat) : Prop := ∀ others, p ⟨others, n⟩ ≠ none

variable {n : Nat} {p : Prog α}

theorem Does.clean {post : α → Nat → List (Nat × Nat) → Prop} (h : Does n [] p post) :
    Clean p n := by
  obtain ⟨a, n', bs, -, -, hrun⟩ := h
  intro others hfault
  have hsome := hrun others
  rw [nil_append, hfault] at hsome
  cases hsome

theorem Faults.not_clean (h : Faults n [] p) : ¬Clean p n := fun hclean => hclean [] h

end Sandboxie.Blocks
