import Mathlib.Algebra.Polynomial.Div
import Mathlib.Algebra.Polynomial.FieldDivision
import Mathlib.Algebra.Polynomial.RingDivision
import Mathlib.RingTheory.Polynomial.Basic
import Mathlib.RingTheory.PrincipalIdealDomain

/-!
# Words as polynomials

A word is read as the polynomial whose highest coefficient is its first letter.
Long division of a word by a generator slides a window of the generator's
length along the word: `wordPoly_slide` shifts the next letter in and
`wordPoly_reduce` subtracts a multiple of the generator. The remainder decides
divisibility (`dvd_iff_remainder`), and a generator with a non-zero constant
term divides no word whose non-zero letters lie in a burst shorter than it
(`not_dvd_of_burst`).
-/

namespace NetLab.Coding

open Polynomial

universe u

section Semiring

variable {R : Type u} [CommSemiring R]

/-- The polynomial of the first `length` letters, the first letter the highest coefficient. -/
noncomputable def wordPoly (word : ℕ → R) : ℕ → R[X]
  | 0 => 0
  | length + 1 => wordPoly word length * X + C (word length)

@[simp]
theorem wordPoly_zero (word : ℕ → R) : wordPoly word 0 = 0 := rfl

theorem wordPoly_succ (word : ℕ → R) (length : ℕ) :
    wordPoly word (length + 1) = wordPoly word length * X + C (word length) := rfl

theorem wordPoly_congr {left right : ℕ → R} {length : ℕ}
    (agree : ∀ index, index < length → left index = right index) :
    wordPoly left length = wordPoly right length := by
  induction length with
  | zero => rfl
  | succ length ih =>
      simp only [wordPoly_succ, ih (fun index below => agree index (by omega)),
        agree length (by omega)]

theorem wordPoly_add_length (word : ℕ → R) (first second : ℕ) :
    wordPoly word (first + second) =
      wordPoly word first * X ^ second + wordPoly (fun index => word (first + index)) second := by
  induction second with
  | zero => simp
  | succ second ih =>
      simp only [← Nat.add_assoc, wordPoly_succ, ih, pow_succ]
      ring

theorem coeff_wordPoly (word : ℕ → R) (length k : ℕ) :
    (wordPoly word length).coeff k = if k < length then word (length - 1 - k) else 0 := by
  induction length generalizing k with
  | zero => simp
  | succ length ih =>
      rcases k with _ | k
      · simp [wordPoly_succ]
      · have letter : length - (k + 1) = length - 1 - k := by omega
        simp [wordPoly_succ, ih, letter, coeff_C_succ]

theorem degree_wordPoly_lt (word : ℕ → R) (length : ℕ) :
    (wordPoly word length).degree < length := by
  apply (degree_lt_iff_coeff_zero _ _).mpr
  intro k above
  simp only [coeff_wordPoly, if_neg (Nat.not_lt.mpr above)]

theorem wordPoly_eq_zero_iff {word : ℕ → R} {length : ℕ} :
    wordPoly word length = 0 ↔ ∀ index, index < length → word index = 0 := by
  constructor
  · intro zero index below
    have letter : length - 1 - (length - 1 - index) = index := by omega
    have coefficient := coeff_wordPoly word length (length - 1 - index)
    rw [zero, coeff_zero, if_pos (by omega), letter] at coefficient
    exact coefficient.symm
  · intro zeros
    ext k
    simp only [coeff_wordPoly, coeff_zero]
    split_ifs with below
    · exact zeros _ (by omega)
    · rfl

/-- Letters that are zero from `first` on only shift the word. -/
theorem wordPoly_pad {word : ℕ → R} {first second : ℕ}
    (zeros : ∀ index, index < second → word (first + index) = 0) :
    wordPoly word (first + second) = wordPoly word first * X ^ second := by
  rw [wordPoly_add_length, wordPoly_eq_zero_iff.mpr zeros, add_zero]

theorem monic_wordPoly {word : ℕ → R} (length : ℕ) (leading : word 0 = 1) :
    (wordPoly word (length + 1)).Monic := by
  apply monic_of_natDegree_le_of_coeff_eq_one length
  · apply natDegree_le_iff_coeff_eq_zero.mpr
    intro k above
    simp only [coeff_wordPoly, if_neg (Nat.not_lt.mpr above)]
  · simp [coeff_wordPoly, leading]

end Semiring

section Ring

variable {R : Type u} [CommRing R]

/-- The window slides one letter on: its first letter, which is zero, drops out, and the next
letter of the word comes in at the end. -/
theorem wordPoly_slide {word window : ℕ → R} {consumed size : ℕ} {quotient generator : R[X]}
    (divided : wordPoly word consumed = quotient * generator + wordPoly window (size + 1))
    (cleared : window 0 = 0) :
    wordPoly word (consumed + 1) = quotient * X * generator +
      wordPoly (fun index => if index < size then window (index + 1) else word consumed)
        (size + 1) := by
  have head : wordPoly window (size + 1) = wordPoly (fun index => window (index + 1)) size := by
    rw [Nat.add_comm size 1, wordPoly_add_length]
    simp [wordPoly_succ, cleared, Nat.add_comm 1]
  have kept : wordPoly (fun index => if index < size then window (index + 1) else word consumed)
      size = wordPoly (fun index => window (index + 1)) size :=
    wordPoly_congr fun index below => if_pos below
  simp only [wordPoly_succ word consumed, divided, head,
    wordPoly_succ (fun index => if index < size then _ else _) size, kept, lt_irrefl, if_false]
  ring

/-- Subtracting a multiple of the generator from the window adds it to the quotient. -/
theorem wordPoly_reduce {word window generator : ℕ → R} {consumed size : ℕ} {quotient : R[X]}
    (multiple : R)
    (divided : wordPoly word consumed =
      quotient * wordPoly generator size + wordPoly window size) :
    wordPoly word consumed = (quotient + C multiple) * wordPoly generator size +
      wordPoly (fun index => window index - multiple * generator index) size := by
  have linear : ∀ length, wordPoly (fun index => window index - multiple * generator index) length =
      wordPoly window length - C multiple * wordPoly generator length := by
    intro length
    induction length with
    | zero => simp
    | succ length ih =>
        simp only [wordPoly_succ, ih, C_sub, C_mul]
        ring
  rw [linear, divided]
  ring

/-- The generator divides a word exactly when the remainder left in the window is zero. -/
theorem dvd_iff_remainder [Nontrivial R] {generator window : ℕ → R} {size : ℕ}
    {quotient dividend : R[X]} (leading : generator 0 = 1) (cleared : window 0 = 0)
    (divided : dividend = quotient * wordPoly generator (size + 1) + wordPoly window (size + 1)) :
    wordPoly generator (size + 1) ∣ dividend ↔
      ∀ index, 1 ≤ index → index ≤ size → window index = 0 := by
  have monic := monic_wordPoly size leading
  have degree : (wordPoly generator (size + 1)).degree = size := by
    apply le_antisymm
    · exact Order.le_of_lt_succ (by exact_mod_cast degree_wordPoly_lt generator (size + 1))
    · apply le_degree_of_ne_zero
      simp [coeff_wordPoly, leading]
  have small : (wordPoly window (size + 1)).degree < (wordPoly generator (size + 1)).degree := by
    rw [degree, Nat.add_comm size 1, wordPoly_add_length]
    simpa [wordPoly_succ, cleared] using degree_wordPoly_lt (fun index => window (1 + index)) size
  rw [divided, dvd_add_right (dvd_mul_left _ _)]
  constructor
  · intro divides index _ upper
    have remainder : wordPoly window (size + 1) = 0 := by
      by_contra nonzero
      exact monic.not_dvd_of_degree_lt nonzero small divides
    exact wordPoly_eq_zero_iff.mp remainder index (by omega)
  · intro zeros
    have remainder : wordPoly window (size + 1) = 0 := by
      apply wordPoly_eq_zero_iff.mpr
      intro index upper
      rcases index with _ | index
      · exact cleared
      · exact zeros (index + 1) (by omega) (by omega)
    rw [remainder]
    exact dvd_zero _

end Ring

/-- A generator with a non-zero constant term divides no non-zero word whose non-zero letters lie
within as many consecutive positions as the degree of the generator. -/
theorem not_dvd_of_burst {F : Type u} [Field F] {generator word : ℕ → F} {size length : ℕ}
    (start : ℕ) (leading : generator 0 = 1) (constant : generator size ≠ 0)
    (burst : ∀ index, index < length → word index ≠ 0 → start ≤ index ∧ index < start + size)
    (nonzero : ∃ index, index < length ∧ word index ≠ 0) :
    ¬wordPoly generator (size + 1) ∣ wordPoly word length := by
  intro divides
  obtain ⟨witness, witness_lt, witness_ne⟩ := nonzero
  have ⟨witness_ge, witness_end⟩ := burst witness witness_lt witness_ne
  -- The burst, cut off at the end of the word, followed by zeros.
  obtain ⟨width, rest, length_eq, width_le, whole⟩ : ∃ width rest,
      length = start + width + rest ∧ width ≤ size ∧ (rest = 0 ∨ width = size) := by
    rcases Nat.le_total length (start + size) with short | long
    · exact ⟨length - start, 0, by omega, by omega, Or.inl rfl⟩
    · exact ⟨size, length - (start + size), by omega, le_rfl, Or.inr rfl⟩
  have before : wordPoly word start = 0 := by
    apply wordPoly_eq_zero_iff.mpr
    intro index below
    by_contra letter
    have := burst index (by omega) letter
    omega
  have factored : wordPoly word length =
      wordPoly (fun index => word (start + index)) width * X ^ rest := by
    rw [length_eq, wordPoly_pad, wordPoly_add_length, before, zero_mul, zero_add]
    intro index below
    by_contra letter
    have := burst (start + width + index) (by omega) letter
    omega
  have coprime : IsCoprime (wordPoly generator (size + 1)) (X ^ rest) := by
    apply IsCoprime.pow_right
    apply IsCoprime.symm
    apply irreducible_X.coprime_iff_not_dvd.mpr
    simpa [X_dvd_iff, coeff_wordPoly] using constant
  have divides_burst := coprime.dvd_of_dvd_mul_right (factored ▸ divides)
  have zero : wordPoly (fun index => word (start + index)) width = 0 := by
    by_contra nonzero
    apply (monic_wordPoly size leading).not_dvd_of_degree_lt nonzero _ divides_burst
    apply (degree_wordPoly_lt _ width).trans_le
    apply (Nat.cast_le.mpr width_le).trans
    apply le_degree_of_ne_zero
    simp [coeff_wordPoly, leading]
  apply witness_ne
  have letter := wordPoly_eq_zero_iff.mp zero (witness - start) (by omega)
  rwa [Nat.add_sub_cancel' witness_ge] at letter

end NetLab.Coding
