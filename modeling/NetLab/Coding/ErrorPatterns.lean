import NetLab.Coding.WordPolynomial
import Mathlib.Algebra.CharP.Two
import Mathlib.Algebra.Field.ZMod

/-!
# Words that a generator divides

A generator with a constant term sees no power of `X`. Over the field of two elements, the value at
one is the parity of a word, and a word with two letters is, up to a power of `X`, a binomial.
-/

namespace NetLab.Coding

open Polynomial

universe u

section Field

variable {F : Type u} [Field F] {generator : ℕ → F} {size : ℕ}

theorem dvd_mul_X_pow_iff (constant : generator size ≠ 0) (word : F[X]) (shift : ℕ) :
    wordPoly generator (size + 1) ∣ word * X ^ shift ↔ wordPoly generator (size + 1) ∣ word := by
  have coprime : IsCoprime (wordPoly generator (size + 1)) (X ^ shift) := by
    apply IsCoprime.pow_right
    apply IsCoprime.symm
    apply irreducible_X.coprime_iff_not_dvd.mpr
    simpa [X_dvd_iff, coeff_wordPoly] using constant
  constructor
  · exact coprime.dvd_of_dvd_mul_right
  · exact fun divides => Dvd.dvd.mul_right divides _

theorem eval_one_wordPoly (word : ℕ → F) (length : ℕ) :
    (wordPoly word length).eval 1 = ∑ index ∈ Finset.range length, word index := by
  induction length with
  | zero => simp
  | succ length ih => simp [wordPoly_succ, ih, Finset.sum_range_succ]

/-- A word whose only letters that are not zero are two ones. -/
theorem wordPoly_pair {word : ℕ → F} {first second length : ℕ} (order : first < second)
    (inside : second < length) (ones : word first = 1 ∧ word second = 1)
    (zeros : ∀ index, index < length → index ≠ first → index ≠ second → word index = 0) :
    wordPoly word length = (X ^ (second - first) + 1) * X ^ (length - 1 - second) := by
  have split : length = first + 1 + (second - first) + (length - 1 - second) := by omega
  have front : wordPoly word (first + 1) = 1 := by
    have before : wordPoly word first = 0 :=
      wordPoly_eq_zero_iff.mpr fun index below => zeros index (by omega) (by omega) (by omega)
    rw [wordPoly_succ, before, ones.1, zero_mul, zero_add, C_1]
  have middle : wordPoly word (first + 1 + (second - first)) = X ^ (second - first) + 1 := by
    obtain ⟨gap, rfl⟩ : ∃ gap, second = first + 1 + gap := ⟨second - (first + 1), by omega⟩
    have width : first + 1 + gap - first = gap + 1 := by omega
    have clear : wordPoly word (first + 1 + gap) = wordPoly word (first + 1) * X ^ gap :=
      wordPoly_pad fun index below => zeros _ (by omega) (by omega) (by omega)
    rw [width, ← Nat.add_assoc, wordPoly_succ, clear, front, ones.2, one_mul, C_1, pow_succ]
  have behind : wordPoly word length =
      wordPoly word (first + 1 + (second - first)) * X ^ (length - 1 - second) := by
    conv_lhs => rw [split]
    exact wordPoly_pad fun index below => zeros _ (by omega) (by omega) (by omega)
  rw [behind, middle]

end Field

section Binary

/-- How many letters of a word are not zero. -/
def weight (word : ℕ → ZMod 2) (length : ℕ) : ℕ :=
  ((Finset.range length).filter fun index => word index ≠ 0).card

theorem eval_one_eq_weight (word : ℕ → ZMod 2) (length : ℕ) :
    (wordPoly word length).eval 1 = (weight word length : ZMod 2) := by
  have letter (index : ℕ) : word index = if word index ≠ 0 then 1 else 0 := by
    generalize word index = bit
    revert bit
    decide
  rw [eval_one_wordPoly, weight, Finset.sum_congr rfl fun index _ => letter index,
    Finset.sum_boole]

theorem eval_one_eq_zero_iff (word : ℕ → ZMod 2) (length : ℕ) :
    (wordPoly word length).eval 1 = 0 ↔ Even (weight word length) := by
  rw [eval_one_eq_weight]
  exact ZMod.natCast_eq_zero_iff_even

/-- A generator of even weight divides words of even weight only. -/
theorem even_weight_of_dvd {generator word : ℕ → ZMod 2} {size length : ℕ}
    (even : Even (weight generator size))
    (divides : wordPoly generator size ∣ wordPoly word length) : Even (weight word length) := by
  rcases divides with ⟨quotient, product⟩
  rw [← eval_one_eq_zero_iff] at even ⊢
  rw [product, eval_mul, even, zero_mul]

end Binary

end NetLab.Coding
