import NetLab.Packets.InternetChecksum
import Mathlib.Algebra.BigOperators.Intervals

/-!
# Changes of a single word

In ones' complement the words of zeros and of ones both stand for zero. They are the
only two that `ComputeChecksum` does not tell apart, and it tells apart even these in
an array that holds nothing else.
-/

namespace NetLab.Packets

open NetLab.Coding NetLab.Posix

/-- The 16-bit word at the index `k`, where bytes behind the end count as zero. -/
def wordAt (data : List Byte) (k : ℕ) : ℕ :=
  (data.getD (2 * k) 0#8).toNat + 2 ^ 8 * (data.getD (2 * k + 1) 0#8).toNat

/-- Arrays of one length that differ in the word at the index `k` and in no other. -/
structure DifferInWord (k : ℕ) (data other : List Byte) : Prop where
  length : other.length = data.length
  here : wordAt data k ≠ wordAt other k
  elsewhere : ∀ i ≠ k, wordAt data i = wordAt other i

section Words

variable {data other : List Byte} {k : ℕ}

theorem wordAt_lt (data : List Byte) (k : ℕ) : wordAt data k < 2 ^ 16 := by
  have low_lt := (data.getD (2 * k) 0#8).isLt
  have high_lt := (data.getD (2 * k + 1) 0#8).isLt
  rw [wordAt]
  omega

theorem wordAt_of_le (behind : data.length ≤ 2 * k) : wordAt data k = 0 := by
  rw [wordAt, List.getD_eq_default _ _ behind,
    List.getD_eq_default _ _ (Nat.le_succ_of_le behind)]
  rfl

theorem wordAt_zero (low high : Byte) (rest : List Byte) :
    wordAt (low :: high :: rest) 0 = low.toNat + 2 ^ 8 * high.toNat :=
  rfl

theorem wordAt_succ (low high : Byte) (rest : List Byte) (k : ℕ) :
    wordAt (low :: high :: rest) (k + 1) = wordAt rest k := by
  rw [wordAt, wordAt, show 2 * (k + 1) = 2 * k + 1 + 1 by omega]
  simp only [List.getD_cons_succ]

theorem sum_littleWords {count : ℕ} (covered : data.length ≤ 2 * count) :
    (littleWords data).sum = ∑ i ∈ Finset.range count, wordAt data i := by
  induction data using littleWords.induct generalizing count with
  | case1 low high rest ih =>
      rcases count with _ | count
      · simp at covered
      · simp only [List.length_cons] at covered
        rw [littleWords, List.sum_cons, Finset.sum_range_succ', wordAt_zero,
          @ih count (by omega), Nat.add_comm]
        simp only [wordAt_succ]
  | case2 last =>
      rcases count with _ | count
      · simp at covered
      · rw [Finset.sum_range_succ', Finset.sum_eq_zero]
        · simp [littleWords, wordAt]
        · intro i _
          exact wordAt_of_le (by simp; omega)
  | case3 =>
      rw [Finset.sum_eq_zero]
      · rfl
      · intro i _
        exact wordAt_of_le (Nat.zero_le _)

/-- The sum of all the words but one. -/
def sumBut (data : List Byte) (k : ℕ) : ℕ :=
  ∑ i ∈ (Finset.range (data.length + k + 1)).erase k, wordAt data i

theorem sum_littleWords_eq (data : List Byte) (k : ℕ) :
    (littleWords data).sum = sumBut data k + wordAt data k := by
  have among : k ∈ Finset.range (data.length + k + 1) := Finset.mem_range.mpr (by omega)
  rw [@sum_littleWords data (data.length + k + 1) (by omega), sumBut,
    Finset.sum_erase_add _ _ among]

theorem sumBut_ne_zero_iff : sumBut data k ≠ 0 ↔ ∃ i ≠ k, wordAt data i ≠ 0 := by
  simp only [sumBut, ne_eq, Finset.sum_eq_zero_iff, not_forall]
  constructor
  · rintro ⟨i, listed, nonzero⟩
    exact ⟨i, Finset.ne_of_mem_erase listed, nonzero⟩
  · rintro ⟨i, other, nonzero⟩
    refine ⟨i, Finset.mem_erase.mpr ⟨other, Finset.mem_range.mpr ?_⟩, nonzero⟩
    by_contra behind
    exact nonzero (wordAt_of_le (by omega))

theorem DifferInWord.sumBut_eq (differ : DifferInWord k data other) :
    sumBut other k = sumBut data k := by
  rw [sumBut, sumBut, differ.length]
  apply Finset.sum_congr rfl
  intro i listed
  exact (differ.elsewhere i (Finset.ne_of_mem_erase listed)).symm

end Words

/-- A change of one word changes the result, unless it is one between zeros and ones in an array
that has other words than zeros. -/
theorem computeChecksum_eq_iff (data other : List Byte) (k : ℕ)
    (differ : DifferInWord k data other) :
    computeChecksum data = computeChecksum other ↔
      (wordAt data k = 0 ∧ wordAt other k = 0xFFFF ∨
        wordAt data k = 0xFFFF ∧ wordAt other k = 0) ∧
      ∃ i ≠ k, wordAt data i ≠ 0 := by
  have values : computeChecksum data = computeChecksum other ↔
      endAround (2 ^ 16) (littleWords data).sum = endAround (2 ^ 16) (littleWords other).sum := by
    have data_lt : endAround (2 ^ 16) (littleWords data).sum < 2 ^ 16 := endAround_lt (by decide)
    have other_lt : endAround (2 ^ 16) (littleWords other).sum < 2 ^ 16 :=
      endAround_lt (by decide)
    rw [← BitVec.toNat_inj, toNat_computeChecksum, toNat_computeChecksum]
    omega
  rw [values, sum_littleWords_eq data k, sum_littleWords_eq other k, differ.sumBut_eq,
    endAround_add_digit_eq_iff (by decide) (wordAt_lt data k) (wordAt_lt other k) differ.here,
    sumBut_ne_zero_iff]
  rfl

theorem computeChecksum_eq_iff_three :
    computeChecksum [0#8, 0#8, 7#8] = computeChecksum [0xFF#8, 0xFF#8, 7#8] ↔
      (wordAt [0#8, 0#8, 7#8] 0 = 0 ∧ wordAt [0xFF#8, 0xFF#8, 7#8] 0 = 0xFFFF ∨
        wordAt [0#8, 0#8, 7#8] 0 = 0xFFFF ∧ wordAt [0xFF#8, 0xFF#8, 7#8] 0 = 0) ∧
      ∃ i ≠ 0, wordAt [0#8, 0#8, 7#8] i ≠ 0 := by
  apply computeChecksum_eq_iff
  constructor
  case length => rfl
  case here => decide
  case elsewhere =>
    intro i behind
    rcases i with _ | i
    · exact absurd rfl behind
    · rw [wordAt_succ, wordAt_succ]

end NetLab.Packets
