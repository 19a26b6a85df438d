import Mathlib.Data.Int.ModEq
import Mathlib.Tactic.Linarith

/-!
# Ones' complement sums

In ones' complement addition a carry out of the highest digit is added to the
lowest one. Folding the carries of an ordinary sum gives the same result, in
whatever order this is done, because the base is 1 modulo one less than the base.
-/

namespace NetLab.Coding

variable {base sum : ℕ}

/-- The carries out of the lowest digit are added to it once. -/
def foldCarry (base sum : ℕ) : ℕ :=
  sum % base + sum / base

/-- The carries are folded until none is left. -/
def foldCarries (base sum : ℕ) : ℕ :=
  if 1 < base ∧ base ≤ sum then foldCarries base (foldCarry base sum) else sum
termination_by sum
decreasing_by
  rename_i more
  rw [foldCarry]
  have whole := Nat.div_add_mod sum base
  have carries : 0 < sum / base := Nat.div_pos more.2 (by omega)
  nlinarith [more.1]

/-- The one value of a digit that a sum has in ones' complement. Zero is the value of an empty sum
only. -/
def endAround (base sum : ℕ) : ℕ :=
  if sum = 0 then 0 else (sum - 1) % (base - 1) + 1

theorem foldCarry_modEq (positive : 0 < base) : foldCarry base sum ≡ sum [MOD base - 1] := by
  have one : base ≡ 1 [MOD base - 1] := by
    have same := Nat.add_modEq_left (n := base - 1) (a := 1)
    rwa [Nat.sub_add_cancel positive] at same
  calc foldCarry base sum
      = sum % base + 1 * (sum / base) := by rw [foldCarry, Nat.one_mul]
    _ ≡ sum % base + base * (sum / base) [MOD base - 1] :=
        (one.symm.mul_right _).add_left _
    _ = sum := Nat.mod_add_div sum base

theorem foldCarry_eq_zero_iff : foldCarry base sum = 0 ↔ sum = 0 := by
  rw [foldCarry]
  constructor
  · intro zero
    rw [← Nat.mod_add_div sum base, Nat.eq_zero_of_add_eq_zero_right zero,
      Nat.eq_zero_of_add_eq_zero_left zero, Nat.mul_zero]
  · rintro rfl
    simp

theorem endAround_lt (many : 1 < base) : endAround base sum < base := by
  rw [endAround]
  split
  case isTrue => omega
  case isFalse =>
    have below : (sum - 1) % (base - 1) < base - 1 := Nat.mod_lt _ (by omega)
    omega

theorem endAround_modEq (base sum : ℕ) : endAround base sum ≡ sum [MOD base - 1] := by
  rw [endAround]
  split
  case isTrue zero => rw [zero]
  case isFalse positive =>
    calc (sum - 1) % (base - 1) + 1
        ≡ sum - 1 + 1 [MOD base - 1] := (Nat.mod_modEq _ _).add_right 1
      _ = sum := Nat.sub_add_cancel (Nat.pos_of_ne_zero positive)

theorem endAround_eq_zero_iff : endAround base sum = 0 ↔ sum = 0 := by
  rw [endAround]
  split
  case isTrue zero => exact iff_of_true rfl zero
  case isFalse positive => exact iff_of_false (Nat.succ_ne_zero _) positive

theorem digit_unique {left right : ℕ} (left_lt : left < base) (right_lt : right < base)
    (congruent : left ≡ right [MOD base - 1]) (zero : left = 0 ↔ right = 0) : left = right := by
  wlog ordered : left ≤ right generalizing left right
  · exact (this right_lt left_lt congruent.symm zero.symm (Nat.le_of_not_le ordered)).symm
  · rcases (Nat.modEq_iff_dvd' ordered).mp congruent with ⟨quotient, difference⟩
    rcases Nat.eq_zero_or_pos quotient with rfl | positive
    · omega
    · have far : base - 1 ≤ right - left :=
        difference ▸ Nat.le_mul_of_pos_right _ positive
      omega

theorem endAround_congr {other : ℕ} (many : 1 < base) (congruent : other ≡ sum [MOD base - 1])
    (zero : other = 0 ↔ sum = 0) : endAround base other = endAround base sum := by
  apply digit_unique (endAround_lt many) (endAround_lt many)
  · exact ((endAround_modEq base other).trans congruent).trans (endAround_modEq base sum).symm
  · rw [endAround_eq_zero_iff, endAround_eq_zero_iff, zero]

/-- Equal values are those of congruent sums, of which none or both are empty. -/
theorem endAround_eq_iff {other : ℕ} (many : 1 < base) :
    endAround base other = endAround base sum ↔
      other ≡ sum [MOD base - 1] ∧ (other = 0 ↔ sum = 0) := by
  constructor
  · intro same
    constructor
    · exact (endAround_modEq base other).symm.trans (same ▸ endAround_modEq base sum)
    · rw [← @endAround_eq_zero_iff base other, same, endAround_eq_zero_iff]
  · rintro ⟨congruent, zero⟩
    exact endAround_congr many congruent zero

theorem endAround_of_lt (many : 1 < base) (below : sum < base) : endAround base sum = sum :=
  digit_unique (endAround_lt many) below (endAround_modEq base sum) endAround_eq_zero_iff

theorem endAround_add_congr {left right : ℕ} (many : 1 < base)
    (same : endAround base left = endAround base right) (sum : ℕ) :
    endAround base (left + sum) = endAround base (right + sum) := by
  have ⟨congruent, zero⟩ := (endAround_eq_iff many).mp same
  apply endAround_congr many (congruent.add_right sum)
  rw [Nat.add_eq_zero_iff, zero, ← Nat.add_eq_zero_iff]

/-- Of two digits that are added to the same sum, zero and the highest one alone give the same
value, unless the sum is empty. -/
theorem endAround_add_digit_eq_iff {digit other : ℕ} (many : 1 < base) (digit_lt : digit < base)
    (other_lt : other < base) (apart : digit ≠ other) :
    endAround base (sum + digit) = endAround base (sum + other) ↔
      (digit = 0 ∧ other = base - 1 ∨ digit = base - 1 ∧ other = 0) ∧ sum ≠ 0 := by
  wlog ordered : digit < other generalizing digit other
  · have turned := this other_lt digit_lt apart.symm (by omega)
    rw [eq_comm, turned]
    apply and_congr_left
    intro _
    rw [or_comm, and_comm, @and_comm (other = 0)]
  · rw [endAround_eq_iff many]
    constructor
    · rintro ⟨congruent, zero⟩
      have shifted : digit ≡ other [MOD base - 1] := Nat.ModEq.add_left_cancel' sum congruent
      have far := Nat.le_of_dvd (by omega) ((Nat.modEq_iff_dvd' ordered.le).mp shifted)
      omega
    · rintro ⟨extremes, nonzero⟩
      rcases extremes with ⟨rfl, rfl⟩ | ⟨rfl, rfl⟩
      · constructor
        · exact Nat.ModEq.add_left sum (Nat.modEq_zero_iff_dvd.mpr dvd_rfl).symm
        · omega
      · omega

theorem endAround_foldCarry (many : 1 < base) :
    endAround base (foldCarry base sum) = endAround base sum :=
  endAround_congr many (foldCarry_modEq (by omega)) foldCarry_eq_zero_iff

/-- Folding until no carry is left gives the ones' complement value of the sum. -/
theorem foldCarries_eq (many : 1 < base) (sum : ℕ) : foldCarries base sum = endAround base sum := by
  induction sum using foldCarries.induct base with
  | case1 sum more ih => rw [foldCarries, if_pos more, ih, endAround_foldCarry many]
  | case2 sum done =>
      have below : sum < base := not_le.mp fun more => done ⟨many, more⟩
      rw [foldCarries, if_neg done, endAround_of_lt many below]

/-- The value is the highest one exactly for the positive multiples of the modulus. -/
theorem endAround_eq_max_iff (many : 1 < base) :
    endAround base sum = base - 1 ↔ 0 < sum ∧ base - 1 ∣ sum := by
  have congruent := endAround_modEq base sum
  have zero := @endAround_eq_zero_iff base sum
  constructor
  · intro highest
    rw [highest] at congruent zero
    refine ⟨Nat.pos_of_ne_zero fun none => ?_, ?_⟩
    · have := zero.mpr none
      omega
    · exact (Nat.modEq_zero_iff_dvd).mp (congruent.symm.trans (Nat.modEq_zero_iff_dvd.mpr dvd_rfl))
  · rintro ⟨positive, divides⟩
    apply digit_unique (endAround_lt many) (by omega)
    · exact congruent.trans ((Nat.modEq_zero_iff_dvd.mpr divides).trans
        (Nat.modEq_zero_iff_dvd.mpr dvd_rfl).symm)
    · rw [zero]
      omega

def onesComplementSum (base : ℕ) (digits : List ℕ) : ℕ :=
  digits.foldl (fun sum digit => foldCarry base (sum + digit)) 0

theorem foldCarry_add_eq {digit : ℕ} (many : 1 < base) (sum_lt : sum < base)
    (digit_lt : digit < base) : foldCarry base (sum + digit) = endAround base (sum + digit) := by
  have once : foldCarry base (sum + digit) < base := by
    rw [foldCarry]
    rcases Nat.lt_or_ge (sum + digit) base with below | carry
    · rwa [Nat.mod_eq_of_lt below, Nat.div_eq_of_lt below]
    · have quotient : (sum + digit) / base = 1 := by
        apply Nat.div_eq_of_lt_le <;> omega
      have remainder := Nat.mod_add_div (sum + digit) base
      rw [quotient] at remainder ⊢
      omega
  rw [← endAround_of_lt many once, endAround_foldCarry many]

/-- Adding digit by digit gives the ones' complement value of the ordinary sum. -/
theorem onesComplementSum_eq (many : 1 < base) {digits : List ℕ}
    (small : ∀ digit ∈ digits, digit < base) :
    onesComplementSum base digits = endAround base digits.sum := by
  suffices from_start : ∀ start < base,
      digits.foldl (fun sum digit => foldCarry base (sum + digit)) start =
        endAround base (start + digits.sum) by
    simpa only [onesComplementSum, Nat.zero_add] using from_start 0 (by omega)
  induction digits with
  | nil =>
      intro start below
      exact (endAround_of_lt many below).symm
  | cons digit digits ih =>
      intro start below
      rw [List.forall_mem_cons] at small
      have first := foldCarry_add_eq many below small.1
      have settled := endAround_of_lt many (@endAround_lt base (start + digit) many)
      rw [List.foldl_cons, first, ih small.2 _ (endAround_lt many), List.sum_cons, ← Nat.add_assoc,
        endAround_add_congr many settled]

end NetLab.Coding
