import NetLab.Coding.BitCount
import NetLab.Imperative.Loop

/-!
# The parity bit program

`errcorrection/first.cpp` counts the ones of a number and sends it with its parity as the
last bit. The loop shifts the number until nothing is left of it; a negative `int` keeps its
sign when it is shifted.
-/

namespace NetLab.Parity

open NetLab.Imperative NetLab.Coding

structure Scan where
  num : BitVec 32
  count : ℕ

/-- One pass of `while(num)`. -/
def scanPass (state : Scan) : Pass Scan ℕ :=
  if state.num ≠ 0#32 then
    .again
      { num := state.num.sshiftRight 1
        count := if state.num &&& 1#32 ≠ 0#32 then state.count + 1 else state.count }
  else .leave state.count

def countOnes (num : BitVec 32) (fuel : ℕ) : Option ℕ :=
  loop scanPass fuel { num := num, count := 0 }

/-- What is printed: the parity bit and the transmitted number, `temp<<1|parity`. -/
structure Printed where
  parity : BitVec 32
  transmitted : BitVec 32

def main (num : BitVec 32) (fuel : ℕ) : Option Printed :=
  let temp := num
  (countOnes num fuel).map fun count =>
    let parity : BitVec 32 := if count % 2 = 1 then 1#32 else 0#32
    { parity := parity, transmitted := temp <<< 1 ||| parity }

section Scanning

variable {num : BitVec 32} {state : Scan}

theorem msb_eq_false_iff (num : BitVec 32) : num.msb = false ↔ 0 ≤ num.toInt := by
  rw [BitVec.msb_eq_toInt, decide_eq_false_iff_not, Int.not_lt]

theorem lastBit (num : BitVec 32) (count : ℕ) :
    (if num &&& 1#32 ≠ 0#32 then count + 1 else count) = count + (num.getLsbD 0).toNat := by
  have masked : num &&& 1#32 = BitVec.ofNat 32 (num.getLsbD 0).toNat := by
    apply BitVec.eq_of_toNat_eq
    rw [BitVec.toNat_and, BitVec.toNat_ofNat, BitVec.toNat_ofNat, BitVec.getLsbD,
      Nat.testBit_zero]
    rcases Nat.mod_two_eq_zero_or_one num.toNat with even | odd
    · simp [even]
    · simp [odd]
  rw [masked]
  cases num.getLsbD 0 <;> rfl

/-- A pass takes the last bit off a number without sign. -/
theorem scanPass_positive (positive : state.num.msb = false) :
    (state.num = 0#32 ∧ scanPass state = .leave state.count) ∨
      ∃ next, scanPass state = .again next ∧ next.num.msb = false ∧
        next.num.toNat < state.num.toNat ∧
        next.count + next.num.cpop.toNat = state.count + state.num.cpop.toNat := by
  rw [scanPass]
  split
  case isTrue nonzero =>
    right
    have shifted : state.num.sshiftRight 1 = state.num >>> 1 :=
      BitVec.sshiftRight_eq_of_msb_false positive
    have halved : (state.num >>> 1).toNat = state.num.toNat / 2 := by
      rw [BitVec.toNat_ushiftRight, Nat.shiftRight_eq_div_pow]
    have more : 0 < state.num.toNat :=
      Nat.pos_of_ne_zero fun zero => nonzero (BitVec.eq_of_toNat_eq zero)
    refine ⟨_, rfl, ?_, ?_, ?_⟩
    · rw [BitVec.msb_sshiftRight]
      exact positive
    · simp only [shifted, halved]
      omega
    · simp only [lastBit, shifted]
      rw [toNat_cpop_shiftRight state.num, Nat.add_assoc]
  case isFalse zero =>
    left
    exact ⟨not_not.mp zero, rfl⟩

theorem countOnes_total (positive : num.msb = false) {fuel : ℕ} (enough : num.toNat < fuel) :
    countOnes num fuel = some num.cpop.toNat := by
  have counted : ∃ count, countOnes num fuel = some count ∧ count = num.cpop.toNat := by
    apply loop_total
      (fun state => state.num.msb = false ∧
        state.count + state.num.cpop.toNat = num.cpop.toNat)
      (fun state => state.num.toNat) (fun count => count = num.cpop.toNat)
    case leaves =>
      rintro state count ⟨positive, balance⟩ decision
      rcases scanPass_positive positive with ⟨zero, leaves⟩ | ⟨next, again, _⟩
      · rw [leaves] at decision
        cases decision
        rw [← balance, zero, BitVec.cpop_zero]
        rfl
      · rw [again] at decision
        cases decision
    case repeats =>
      rintro state following ⟨positive, balance⟩ decision
      rcases scanPass_positive positive with ⟨_, leaves⟩ | ⟨next, again, kept, less, counted⟩
      · rw [leaves] at decision
        cases decision
      · rw [again] at decision
        cases decision
        exact ⟨⟨kept, counted.trans balance⟩, less⟩
    case start => exact ⟨positive, Nat.zero_add _⟩
    case enough => exact enough
  rcases counted with ⟨count, ends, rfl⟩
  exact ends

/-- The sign stays, so there is always something left of a negative number. -/
theorem countOnes_negative (negative : num.msb = true) (fuel : ℕ) : countOnes num fuel = none := by
  apply loop_eq_none (fun state => state.num.msb = true)
  · intro state negative
    have nonzero : state.num ≠ 0#32 := by
      intro zero
      rw [zero] at negative
      cases negative
    refine ⟨_, if_pos nonzero, ?_⟩
    rw [BitVec.msb_sshiftRight]
    exact negative
  · exact negative

end Scanning

/-- The transmitted number has an even number of ones, and contains the one that was typed. -/
theorem transmitted_even (num : BitVec 32) (natural : 0 ≤ num.toInt) :
    ∃ printed, (∃ fuel, main num fuel = some printed) ∧ Even printed.transmitted.cpop.toNat ∧
      (num.toInt < 2 ^ 30 → printed.transmitted.sshiftRight 1 = num) := by
  have positive := (msb_eq_false_iff num).mpr natural
  let parity : BitVec 32 := if num.cpop.toNat % 2 = 1 then 1#32 else 0#32
  have balance : parity.toNat = num.cpop.toNat % 2 := by
    have digits := Nat.mod_two_eq_zero_or_one num.cpop.toNat
    simp only [parity]
    split <;> simp <;> omega
  have single : parity.toNat < 2 := by omega
  refine ⟨{ parity := parity, transmitted := num <<< 1 ||| parity },
    ⟨num.toNat + 1, ?_⟩, ?_, ?_⟩
  · rw [main, countOnes_total positive (Nat.lt_succ_self _)]
    rfl
  · apply even_cpop_append positive single
    rw [balance, Nat.even_iff]
    omega
  · intro small
    have fits : (num <<< 1 ||| parity).msb = false := by
      apply msb_append _ single (by decide)
      rw [BitVec.toInt_eq_toNat_of_msb positive] at small
      exact Int.ofNat_lt.mp small
    simp only
    rw [BitVec.sshiftRight_eq_of_msb_false fits, shiftRight_append positive single]

theorem transmitted_even_seven :
    ∃ printed, (∃ fuel, main 7#32 fuel = some printed) ∧ Even printed.transmitted.cpop.toNat ∧
      ((7#32).toInt < 2 ^ 30 → printed.transmitted.sshiftRight 1 = 7#32) :=
  transmitted_even 7#32 (by decide)

/-- The loop ends exactly for the numbers without a sign. -/
theorem countOnes_ends_iff (num : BitVec 32) :
    (∃ fuel count, countOnes num fuel = some count) ↔ 0 ≤ num.toInt := by
  rw [← msb_eq_false_iff]
  constructor
  · rintro ⟨fuel, count, ends⟩
    by_contra negative
    rw [countOnes_negative (Bool.not_eq_false _ ▸ negative)] at ends
    cases ends
  · intro positive
    exact ⟨num.toNat + 1, _, countOnes_total positive (Nat.lt_succ_self _)⟩

/-- Nothing ends the loop for the number -1, which stays the same. -/
theorem minus_one_endless : ¬∃ fuel count, countOnes (-1#32) fuel = some count := by
  rintro ⟨fuel, count, ends⟩
  rw [countOnes_negative (by decide)] at ends
  cases ends

end NetLab.Parity
