import Sandboxie.Lib.Bytes
import Sandboxie.Lib.Layout

/-!
# Stores into a buffer

A store is refused where it would leave the buffer.  Stores that stand behind each other between
two offsets are all still there at the end, and what is in front of them and behind them stays.
-/

namespace Bytes

/-- Copies `d` into `b` at `off`; nothing where it does not fit. -/
def store (b : List UInt8) (off : Nat) (d : List UInt8) : Option (List UInt8) :=
  if off + d.length ≤ b.length then some (splice b off d) else none

def storeAll (b : List UInt8) : List (Nat × List UInt8) → Option (List UInt8)
  | [] => some b
  | s :: ss => (store b s.1 s.2).bind fun b' => storeAll b' ss

variable {b d : List UInt8} {off lo hi : Nat} {ss : List (Nat × List UInt8)}

theorem store_eq (h : off + d.length ≤ b.length) : store b off d = some (splice b off d) :=
  if_pos h

theorem byteAt_part (b : List UInt8) {o n i : Nat} (hi : i < n) :
    byteAt ((b.drop o).take n) i = byteAt b (o + i) := by
  rw [byteAt_take hi, byteAt_drop]

/-- **Stores behind each other**: each of them is there, and the rest stays. -/
theorem storeAll_spec (hstacked : Layout.Stacked List.length lo ss hi) (hhi : hi ≤ b.length) :
    ∃ b', storeAll b ss = some b' ∧ b'.length = b.length ∧
      (∀ s ∈ ss, ∀ i < s.2.length, byteAt b' (s.1 + i) = byteAt s.2 i) ∧
        ∀ i, i < lo ∨ hi ≤ i → byteAt b' i = byteAt b i := by
  induction ss generalizing b lo with
  | nil => exact ⟨b, rfl, rfl, nofun, fun _ _ => rfl⟩
  | cons s ss ih =>
    obtain ⟨hlo, hrest⟩ := hstacked
    have hend := hrest.le
    have hfit : s.1 + s.2.length ≤ b.length := by omega
    have hlen := length_splice hfit
    obtain ⟨b', hb', hlen', hstores, hframe⟩ := ih hrest (by rw [hlen]; exact hhi)
    refine ⟨b', ?_, hlen'.trans hlen, ?_, ?_⟩
    · rw [storeAll, store_eq hfit]
      exact hb'
    · intro t ht i hi
      rcases List.mem_cons.mp ht with rfl | ht
      · rw [hframe _ (.inl (by omega)), byteAt_splice_of_mem (by omega) hi]
      · exact hstores t ht i hi
    · intro i hi
      rw [hframe i (by omega)]
      rcases hi with hi | hi
      · exact byteAt_splice_of_lt (by omega) (by omega)
      · exact byteAt_splice_of_ge hfit (by omega)

end Bytes
