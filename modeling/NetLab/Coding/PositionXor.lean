import Mathlib.Algebra.Order.Interval.Finset.SuccPred
import Mathlib.Algebra.Ring.Parity
import Mathlib.Data.Nat.Bitwise
import Mathlib.Data.Nat.SuccPred
import Mathlib.Order.Interval.Finset.Nat

/-!
# Exclusive or of positions

A binary word is indexed from one. `positionXor` adds up, without carries, the
positions at which it has a one. This is the syndrome of the code whose check
positions are the powers of two: bit `b` of the sum is the parity of the group
of positions whose index has bit `b`, and changing a single position `p`
changes the sum by exactly `p`.
-/

namespace NetLab.Coding

/-- The exclusive or of the positions `1, ..., length` at which the word has a one. -/
def positionXor (word : ℕ → Bool) : ℕ → ℕ
  | 0 => 0
  | length + 1 => positionXor word length ^^^ if word (length + 1) then length + 1 else 0

theorem testBit_positionXor_congr {left right : ℕ → Bool} {bit length : ℕ}
    (agree : ∀ position, 1 ≤ position → position ≤ length → position.testBit bit →
      left position = right position) :
    (positionXor left length).testBit bit = (positionXor right length).testBit bit := by
  induction length with
  | zero => rfl
  | succ length ih =>
      have shorter := ih (fun position lower upper => agree position lower (by omega))
      simp only [positionXor, Nat.testBit_xor, shorter]
      congr 1
      by_cases carries : (length + 1).testBit bit
      · rw [agree (length + 1) (by omega) le_rfl carries]
      · cases left (length + 1) <;> cases right (length + 1) <;> simp [carries]

theorem positionXor_congr {left right : ℕ → Bool} {length : ℕ}
    (agree : ∀ position, 1 ≤ position → position ≤ length → left position = right position) :
    positionXor left length = positionXor right length := by
  apply Nat.eq_of_testBit_eq
  intro bit
  exact testBit_positionXor_congr (fun position lower upper _ => agree position lower upper)

theorem positionXor_lt_two_pow {word : ℕ → Bool} {length width : ℕ} (short : length < 2 ^ width) :
    positionXor word length < 2 ^ width := by
  induction length with
  | zero => exact short
  | succ length ih =>
      apply Nat.xor_lt_two_pow (ih (by omega))
      split
      · exact short
      · omega

theorem positionXor_update_of_lt {word : ℕ → Bool} {length position : ℕ} {value : Bool}
    (above : length < position) :
    positionXor (Function.update word position value) length = positionXor word length := by
  apply positionXor_congr
  intro other _ upper
  exact Function.update_of_ne (by omega) _ _

/-- Storing a bit at a position of the word changes the sum by that position, or not at all. -/
theorem positionXor_update {word : ℕ → Bool} {length position : ℕ} {value : Bool}
    (positive : 1 ≤ position) (inside : position ≤ length) :
    positionXor (Function.update word position value) length =
      positionXor word length ^^^ if value = word position then 0 else position := by
  induction length with
  | zero => omega
  | succ length ih =>
      rcases Nat.lt_or_eq_of_le inside with below | rfl
      · rw [positionXor, positionXor, ih (by omega), Function.update_of_ne (by omega)]
        rw [Nat.xor_assoc, Nat.xor_assoc, Nat.xor_comm (if value = word position then 0 else _)]
      · rw [positionXor, positionXor, positionXor_update_of_lt (Nat.lt_succ_self length),
          Function.update_self, Nat.xor_assoc]
        congr 1
        cases value <;> cases word (length + 1) <;> simp

/-- Bit `bit` of the sum is the parity of the ones in the group of positions with that bit. -/
theorem testBit_positionXor_iff_odd (word : ℕ → Bool) (bit length : ℕ) :
    (positionXor word length).testBit bit ↔
      Odd {position ∈ Finset.Icc 1 length | word position ∧ position.testBit bit}.card := by
  induction length with
  | zero => simp [positionXor]
  | succ length ih =>
      rw [← Finset.insert_Icc_right_eq_Icc_add_one (a := 1) (b := length) (by omega),
        Finset.filter_insert, positionXor, Nat.testBit_xor]
      by_cases counted : word (length + 1) ∧ (length + 1).testBit bit
      · rw [if_pos counted, Finset.card_insert_of_notMem (by simp), Nat.odd_add_one, ← ih]
        simp [counted]
      · rw [if_neg counted, ← ih]
        have unchanged : (if word (length + 1) then length + 1 else 0).testBit bit = false := by
          split_ifs with one
          · simpa [one] using counted
          · simp
        simp [unchanged]

theorem positionXor_false (length : ℕ) : positionXor (fun _ => false) length = 0 := by
  induction length with
  | zero => rfl
  | succ length ih => simp [positionXor, ih]

/-- The positions of a set are added up one by one. -/
theorem positionXor_insert {errors : Finset ℕ} {position length : ℕ} (fresh : position ∉ errors)
    (positive : 1 ≤ position) (inside : position ≤ length) :
    positionXor (fun other => decide (other ∈ insert position errors)) length =
      positionXor (fun other => decide (other ∈ errors)) length ^^^ position := by
  have updated : (fun other => decide (other ∈ insert position errors)) =
      Function.update (fun other => decide (other ∈ errors)) position true := by
    funext other
    rcases eq_or_ne other position with rfl | apart
    · simp
    · rw [Function.update_of_ne apart]
      simp [apart]
  rw [updated, positionXor_update positive inside, if_neg (by simpa using fresh)]

section Distance

variable {word left right : ℕ → Bool} {length : ℕ}

theorem positionXor_xor (left right : ℕ → Bool) (length : ℕ) :
    positionXor (fun position => left position ^^ right position) length =
      positionXor left length ^^^ positionXor right length := by
  induction length with
  | zero => simp [positionXor]
  | succ length ih =>
      have here : (if left (length + 1) ^^ right (length + 1) then length + 1 else 0) =
          (if left (length + 1) then length + 1 else 0) ^^^
            if right (length + 1) then length + 1 else 0 := by
        cases left (length + 1) <;> cases right (length + 1) <;> simp
      rw [positionXor, positionXor, positionXor, ih, here]
      rw [Nat.xor_assoc, Nat.xor_assoc, Nat.xor_left_comm (positionXor right length)]

theorem exists_one_of_positionXor_ne_zero (nonzero : positionXor word length ≠ 0) :
    ∃ position, 1 ≤ position ∧ position ≤ length ∧ word position := by
  induction length with
  | zero => exact absurd rfl nonzero
  | succ length ih =>
      by_cases last : word (length + 1)
      · exact ⟨length + 1, by omega, le_rfl, last⟩
      · rw [positionXor, if_neg last, Nat.xor_zero] at nonzero
        rcases ih nonzero with ⟨position, lower, upper, one⟩
        exact ⟨position, lower, Nat.le_succ_of_le upper, one⟩

/-- Clearing a one leaves its position as the sum, so each one calls for another. -/
theorem exists_three_ones (balanced : positionXor word length = 0) {first : ℕ} (lower : 1 ≤ first)
    (upper : first ≤ length) (one : word first) :
    ∃ second third, (1 ≤ second ∧ second ≤ length ∧ word second) ∧
      (1 ≤ third ∧ third ≤ length ∧ word third) ∧
      first ≠ second ∧ first ≠ third ∧ second ≠ third := by
  have cleared : positionXor (Function.update word first false) length = first := by
    rw [positionXor_update lower upper, balanced, one]
    simp
  rcases exists_one_of_positionXor_ne_zero (by omega :
    positionXor (Function.update word first false) length ≠ 0) with
    ⟨second, second_lower, second_upper, second_one⟩
  have apart : second ≠ first := by
    rintro rfl
    simp at second_one
  have twice : positionXor (Function.update (Function.update word first false) second false)
      length = first ^^^ second := by
    rw [positionXor_update second_lower second_upper, cleared, second_one]
    simp
  have unequal : first ^^^ second ≠ 0 := by
    intro zero
    exact apart (Nat.xor_eq_zero_iff.mp zero).symm
  rcases exists_one_of_positionXor_ne_zero (twice ▸ unequal) with
    ⟨third, third_lower, third_upper, third_one⟩
  have third_ne : third ≠ second := by
    rintro rfl
    simp at third_one
  rw [Function.update_of_ne third_ne] at third_one
  have third_first : third ≠ first := by
    rintro rfl
    simp at third_one
  rw [Function.update_of_ne apart] at second_one
  rw [Function.update_of_ne third_first] at third_one
  exact ⟨second, third, ⟨second_lower, second_upper, second_one⟩,
    ⟨third_lower, third_upper, third_one⟩, apart.symm, third_first.symm, third_ne.symm⟩

/-- Two words with the same sum are equal or differ in three positions. -/
theorem three_le_distance (same : positionXor left length = positionXor right length)
    (differ : ∃ position, 1 ≤ position ∧ position ≤ length ∧ left position ≠ right position) :
    3 ≤ {position ∈ Finset.Icc 1 length | left position ≠ right position}.card := by
  have balanced : positionXor (fun position => left position ^^ right position) length = 0 := by
    rw [positionXor_xor, same, Nat.xor_self]
  rcases differ with ⟨first, lower, upper, unequal⟩
  rcases exists_three_ones balanced lower upper (bne_iff_ne.mpr unequal) with
    ⟨second, third, ⟨second_lower, second_upper, second_one⟩,
      ⟨third_lower, third_upper, third_one⟩, apart⟩
  have member : ∀ {position}, 1 ≤ position → position ≤ length → left position ≠ right position →
      position ∈ {position ∈ Finset.Icc 1 length | left position ≠ right position} :=
    fun lower upper unequal => Finset.mem_filter.mpr ⟨Finset.mem_Icc.mpr ⟨lower, upper⟩, unequal⟩
  apply Finset.two_lt_card.mpr
  refine ⟨first, ?_, second, ?_, third, ?_, apart⟩
  · exact member lower upper unequal
  · exact member second_lower second_upper (bne_iff_ne.mp second_one)
  · exact member third_lower third_upper (bne_iff_ne.mp third_one)

end Distance

end NetLab.Coding
