import NetLab.Hamming.CodeWords

/-!
# Any number of errors

The recalculation on a transmitted word in which bits were flipped. It sees the exclusive or of
their positions: one error is located, two are noticed and located where there is none.
-/

namespace NetLab.Hamming

open NetLab.Imperative NetLab.Coding

/-- A word with the bits at some positions flipped. -/
def flipAll (errors : Finset ℕ) (word : Cells) : Cells :=
  fun p => if p ∈ errors then 1 - word p else word p

section Flipped

variable {W : ℕ} {memory : Memory} {input : Input} {errors : Finset ℕ}

theorem ones_flipAll {word : Cells} {p : ℕ} (bit : word p = 0 ∨ word p = 1) :
    ones (flipAll errors word) p = (ones word p ^^ decide (p ∈ errors)) := by
  by_cases inside : p ∈ errors <;> rcases bit with zero | one <;> simp [ones, flipAll, *]

theorem encoded_zero_or_one (bits : ∀ p, p < input.m → input.frame p = 0 ∨ input.frame p = 1)
    (fits : (main W memory input).l < 2 ^ W) {p : ℕ} (positive : 1 ≤ p)
    (inside : p ≤ (main W memory input).l) :
    (main W memory input).encoded p = 0 ∨ (main W memory input).encoded p = 1 := by
  by_cases power : p.isPowerOfTwo
  · rw [encoded_eq_withChecks bits fits, withChecks, if_pos ⟨Nat.lt_succ_of_le inside, power⟩]
    exact cell_eq_zero_or_one _
  · rw [encoded_data bits fits (mem_dataPositions.mpr ⟨⟨positive, inside⟩, power⟩)]
    exact bits _ (laidOut_data positive inside power).1

theorem positionXor_flipAll (bits : ∀ p, p < input.m → input.frame p = 0 ∨ input.frame p = 1)
    (fits : (main W memory input).l < 2 ^ W) :
    positionXor (ones (flipAll errors (main W memory input).encoded)) (main W memory input).l =
      positionXor (fun p => decide (p ∈ errors)) (main W memory input).l := by
  have balanced := positionXor_encoded bits fits
  have flipped : positionXor (ones (flipAll errors (main W memory input).encoded))
      (main W memory input).l =
      positionXor (fun p => ones (main W memory input).encoded p ^^ decide (p ∈ errors))
        (main W memory input).l :=
    positionXor_congr fun p positive inside =>
      ones_flipAll (encoded_zero_or_one bits fits positive inside)
  rw [flipped, positionXor_xor, balanced, Nat.zero_xor]

end Flipped

/-- Whatever bits of a transmitted word are flipped, the error position is the exclusive or of
their positions: that of a single error, and neither zero nor one of the two for a double error. -/
theorem flipped_errorPosition (W : ℕ) (memory : Memory) (input : Input) (state : Check)
    (errors : Finset ℕ) (bits : ∀ p, p < input.m → input.frame p = 0 ∨ input.frame p = 1)
    (fits : (main W memory input).l < 2 ^ W)
    (inside : ∀ p ∈ errors, 1 ≤ p ∧ p ≤ (main W memory input).l)
    (received : state.df = flipAll errors (main W memory input).encoded) :
    let ep := errorPosition (main W memory input).nrb
      (recalculate W (main W memory input).l state).1.rb
    ep = positionXor (fun p => decide (p ∈ errors)) (main W memory input).l ∧
      (∀ p, errors = {p} → ep = p) ∧
      ∀ p q, p ≠ q → errors = {p, q} → ep ≠ 0 ∧ ep ≠ p ∧ ep ≠ q := by
  intro ep
  have ⟨below, above⟩ := laidOut_between memory input
  have located : ep = positionXor (fun p => decide (p ∈ errors)) (main W memory input).l := by
    have recalculated := errorPosition_recalculate fits state below above
    rw [received] at recalculated
    exact recalculated.trans (positionXor_flipAll bits fits)
  have single (p : ℕ) (listed : p ∈ errors) :
      positionXor (fun other => decide (other ∈ ({p} : Finset ℕ))) (main W memory input).l = p := by
    have ⟨positive, upper⟩ := inside p listed
    have added := positionXor_insert (Finset.notMem_empty p) positive upper
    simp only [insert_empty_eq, Finset.notMem_empty, decide_false, positionXor_false,
      Nat.zero_xor] at added
    exact added
  refine ⟨located, ?_, ?_⟩
  · rintro p rfl
    exact located.trans (single p (Finset.mem_singleton_self p))
  · rintro p q apart rfl
    have ⟨positive, upper⟩ := inside p (Finset.mem_insert_self p {q})
    have sum : ep = q ^^^ p := by
      rw [located, positionXor_insert (by simpa using apart) positive upper, single q (by simp)]
    have ⟨positiveQ, _⟩ := inside q (by simp)
    rw [sum]
    refine ⟨?_, ?_, ?_⟩
    · intro zero
      exact apart (Nat.xor_eq_zero_iff.mp zero).symm
    · intro same
      have zero : q = 0 := by
        have cancelled := congrArg (· ^^^ p) same
        simpa [Nat.xor_assoc] using cancelled
      omega
    · intro same
      have zero : p = 0 := by
        have cancelled := congrArg (q ^^^ ·) same
        simpa [← Nat.xor_assoc] using cancelled
      omega

theorem flipped_errorPosition_single :
    let received : Check :=
      { allOnes with df := flipAll {1, 3} (main 4 clearMemory (singleBit 1)).encoded }
    let ep := errorPosition (main 4 clearMemory (singleBit 1)).nrb
      (recalculate 4 (main 4 clearMemory (singleBit 1)).l received).1.rb
    ep = positionXor (fun p => decide (p ∈ ({1, 3} : Finset ℕ)))
        (main 4 clearMemory (singleBit 1)).l ∧
      (∀ p, ({1, 3} : Finset ℕ) = {p} → ep = p) ∧
      ∀ p q, p ≠ q → ({1, 3} : Finset ℕ) = {p, q} → ep ≠ 0 ∧ ep ≠ p ∧ ep ≠ q :=
  flipped_errorPosition 4 clearMemory (singleBit 1)
    { allOnes with df := flipAll {1, 3} (main 4 clearMemory (singleBit 1)).encoded } {1, 3}
    (fun _ _ => Or.inr rfl) (by decide +kernel) (by decide +kernel) rfl

end NetLab.Hamming
