import Mathlib.Algebra.BigOperators.Intervals
import Mathlib.Algebra.Ring.Parity

/-!
# Counting the ones of a word

A word with a check bit behind its last one: shifting it out again gives back the word, and
the bit makes the number of ones even.
-/

namespace NetLab.Coding

variable {w : ℕ} {word bit : BitVec w}

theorem toNat_cpop_eq_sum (word : BitVec w) :
    word.cpop.toNat = ∑ i ∈ Finset.range w, (word.getLsbD i).toNat := by
  have counted : ∀ count, word.cpopNatRec count 0 =
      ∑ i ∈ Finset.range count, (word.getLsbD i).toNat := by
    intro count
    induction count with
    | zero => rfl
    | succ count ih =>
        rw [BitVec.cpopNatRec_succ, BitVec.cpopNatRec_eq, ih, Finset.sum_range_succ, Nat.zero_add]
  rw [BitVec.toNat_cpop, counted]

/-- The ones of a word are its last bit and those of the word without it. -/
theorem toNat_cpop_shiftRight (word : BitVec w) :
    word.cpop.toNat = (word.getLsbD 0).toNat + (word >>> 1).cpop.toNat := by
  rw [toNat_cpop_eq_sum, toNat_cpop_eq_sum]
  have shifted : ∑ i ∈ Finset.range w, ((word >>> 1).getLsbD i).toNat =
      ∑ i ∈ Finset.range w, (word.getLsbD (i + 1)).toNat := by
    apply Finset.sum_congr rfl
    intro i _
    rw [BitVec.getLsbD_ushiftRight, Nat.add_comm]
  have last : (word.getLsbD w).toNat = 0 := by
    rw [BitVec.getLsbD_of_ge word w le_rfl]
    rfl
  have whole := Finset.sum_range_succ' (fun i => (word.getLsbD i).toNat) w
  rw [Finset.sum_range_succ, last, Nat.add_zero] at whole
  rw [shifted, whole, Nat.add_comm]

theorem getLsbD_last (word bit : BitVec w) :
    (word <<< 1 ||| bit).getLsbD 0 = bit.getLsbD 0 := by
  simp

theorem getLsbD_of_single (single : bit.toNat < 2) (i : ℕ) : bit.getLsbD (i + 1) = false := by
  rw [BitVec.getLsbD, Nat.testBit_lt_two_pow]
  exact single.trans_le (Nat.le_self_pow (by omega) 2)

/-- Shifting out a last bit gives back the word before it, if none of its bits were lost. -/
theorem shiftRight_append (positive : word.msb = false) (single : bit.toNat < 2) :
    (word <<< 1 ||| bit) >>> 1 = word := by
  apply BitVec.eq_of_getLsbD_eq
  intro i inside
  have above : w ≤ i + 1 → word.getLsbD i = false := by
    intro last
    have top : i = w - 1 := by omega
    rw [top, ← BitVec.msb_eq_getLsbD_last, positive]
  rw [BitVec.getLsbD_ushiftRight, Nat.add_comm, BitVec.getLsbD_or, BitVec.getLsbD_shiftLeft,
    getLsbD_of_single single, Bool.or_false, Nat.add_sub_cancel]
  by_cases kept : i + 1 < w
  · simp [kept]
  · rw [above (by omega), Bool.and_false]

theorem msb_append (small : word.toNat < 2 ^ (w - 2)) (single : bit.toNat < 2) (wide : 2 ≤ w) :
    (word <<< 1 ||| bit).msb = false := by
  have top : w - 1 = w - 2 + 1 := by omega
  have clear : word.getLsbD (w - 2) = false := by
    rw [BitVec.getLsbD, Nat.testBit_lt_two_pow small]
  rw [BitVec.msb_eq_getLsbD_last, top, BitVec.getLsbD_or, BitVec.getLsbD_shiftLeft,
    getLsbD_of_single single, Nat.add_sub_cancel, clear, Bool.and_false, Bool.or_false]

/-- A check bit that makes the number of ones even. -/
theorem even_cpop_append (positive : word.msb = false) (single : bit.toNat < 2)
    (balance : Even (word.cpop.toNat + bit.toNat)) : Even (word <<< 1 ||| bit).cpop.toNat := by
  have last : (bit.getLsbD 0).toNat = bit.toNat := by
    rw [BitVec.getLsbD, Nat.testBit_zero]
    have values : bit.toNat = 0 ∨ bit.toNat = 1 := by omega
    rcases values with zero | one
    · rw [zero]
      rfl
    · rw [one]
      rfl
  rw [toNat_cpop_shiftRight, shiftRight_append positive single, getLsbD_last, last, Nat.add_comm]
  exact balance

end NetLab.Coding
