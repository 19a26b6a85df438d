import NetLab.Coding.WordPolynomial
import NetLab.Crc.Basic
import Mathlib.Algebra.Field.ZMod

/-!
# The division loop divides polynomials

Frames of bits are polynomials over the field of two elements, the first cell
the highest coefficient. `Divided` is the invariant of the division loop: the
part of the frame that the window has passed equals the quotient so far times
the generator plus the window, whose first cell is zero. The first iteration
does not move the window, so it is treated on its own (`divided_first`); every
further one moves it and reduces it (`Divided.step`).
-/

namespace NetLab.Crc

open NetLab.Imperative NetLab.Coding Polynomial

def IsBit (cell : BitVec 32) : Prop :=
  cell = 0#32 ∨ cell = 1#32

def coefficient (cell : BitVec 32) : ZMod 2 :=
  if cell = 0#32 then 0 else 1

noncomputable def cellsPoly (cells : Cells) (count : ℕ) : (ZMod 2)[X] :=
  wordPoly (fun i => coefficient (cells i)) count

noncomputable def listPoly (cells : List (BitVec 32)) : (ZMod 2)[X] :=
  cellsPoly (fun i => cells.getD i 0#32) cells.length

theorem IsBit.xor {left right : BitVec 32} (leftBit : IsBit left) (rightBit : IsBit right) :
    IsBit (left ^^^ right) := by
  rcases leftBit with rfl | rfl <;> rcases rightBit with rfl | rfl <;> simp [IsBit]

theorem IsBit.eq_one {cell : BitVec 32} (bit : IsBit cell) (nonzero : cell ≠ 0#32) : cell = 1#32 :=
  bit.resolve_left nonzero

theorem coefficient_xor {left right : BitVec 32} (leftBit : IsBit left) (rightBit : IsBit right) :
    coefficient (left ^^^ right) = coefficient left - coefficient right := by
  rcases leftBit with rfl | rfl <;> rcases rightBit with rfl | rfl <;> decide

theorem coefficient_eq_zero_iff {cell : BitVec 32} : coefficient cell = 0 ↔ cell = 0#32 := by
  simp [coefficient]

theorem coefficient_one : coefficient 1#32 = 1 := by
  decide

theorem cellsPoly_congr {left right : Cells} {count : ℕ}
    (agree : ∀ i, i < count → left i = right i) : cellsPoly left count = cellsPoly right count :=
  wordPoly_congr fun i below => by rw [agree i below]

theorem cellsPoly_succ (cells : Cells) (count : ℕ) :
    cellsPoly cells (count + 1) = cellsPoly cells count * X + C (coefficient (cells count)) := rfl

theorem cellsPoly_add_length (cells : Cells) (first second : ℕ) :
    cellsPoly cells (first + second) =
      cellsPoly cells first * X ^ second + cellsPoly (fun i => cells (first + i)) second :=
  wordPoly_add_length _ first second

theorem cellsPoly_xor {left right : Cells} {count : ℕ} (leftBits : ∀ i, i < count → IsBit (left i))
    (rightBits : ∀ i, i < count → IsBit (right i)) :
    cellsPoly (fun i => left i ^^^ right i) count =
      cellsPoly left count + cellsPoly right count := by
  induction count with
  | zero => simp [cellsPoly]
  | succ count ih =>
      have letter := coefficient_xor (leftBits count (by omega)) (rightBits count (by omega))
      rw [CharTwo.sub_eq_add] at letter
      simp only [cellsPoly_succ, letter, C_add,
        ih (fun i below => leftBits i (by omega)) (fun i below => rightBits i (by omega))]
      ring

theorem listPoly_map_range (cells : Cells) (count : ℕ) :
    listPoly ((List.range count).map cells) = cellsPoly cells count := by
  simp only [listPoly, List.length_map, List.length_range]
  apply cellsPoly_congr
  intro i below
  simp [below]

/-! ## One iteration -/

theorem readCells_apply (count : ℕ) (typed cells : Cells) (p : ℕ) :
    readCells count typed cells p = if p < count then typed p else cells p := by
  simp [readCells, forUp_fill]

theorem window_first (n : ℕ) (a r : Cells) : window n a n r = r := by
  simp [window]

theorem window_later {n i : ℕ} (later : n < i) (a r : Cells) {p : ℕ} (inside : p ≤ n) :
    window n a i r p = if p < n then r (p + 1) else a i := by
  have shifted := forUp_sweep (fun j (r : Cells) => r (j + 1))
    (fun j left right agree => agree (j + 1) (by omega)) 0 n r
  simp only [window, if_pos later, shifted]
  rcases eq_or_ne p n with rfl | other
  · simp
  · have below : p < n := by omega
    simp [Function.update_of_ne other, below]

/-- What an iteration leaves in the window, in the quotient and in the counter. -/
theorem divisionStep_apply (n : ℕ) (g a : Cells) (i : ℕ) (state : Division) {multiple : BitVec 32}
    (multiple_eq : multiple = if window n a i state.r 0 = 0#32 then 0#32 else 1#32) :
    (∀ p, p ≤ n → (divisionStep n g a i state).r p =
        if multiple = 0#32 then window n a i state.r p
        else window n a i state.r p ^^^ g p) ∧
      (divisionStep n g a i state).div = Function.update state.div state.k multiple ∧
      (divisionStep n g a i state).k = state.k + 1 := by
  have reduced := forUp_sweep (fun j (r : Cells) => r j ^^^ g j)
    (fun j left right agree => by rw [agree j le_rfl]) 0 (n + 1) (window n a i state.r)
  by_cases zero : window n a i state.r 0 = 0#32
  · simp [multiple_eq, divisionStep, zero]
  · refine ⟨?_, ?_, ?_⟩
    · intro p inside
      have below : p < n + 1 := by omega
      simp only [multiple_eq, divisionStep, if_pos zero, if_neg zero, reduced, below]
      simp
    · simp [multiple_eq, divisionStep, zero]
    · simp [divisionStep, zero]

/-! ## The invariant -/

/-- After the iterations up to `i`: the window has passed the cells up to `a[i]`. -/
structure Divided (n : ℕ) (g a : Cells) (i : ℕ) (state : Division) : Prop where
  count : state.k + n = i + 1
  window_bits : ∀ p, p ≤ n → IsBit (state.r p)
  quotient_bits : ∀ p, p < state.k → IsBit (state.div p)
  cleared : state.r 0 = 0#32
  divides : cellsPoly a (i + 1) =
    cellsPoly state.div state.k * cellsPoly g (n + 1) + cellsPoly state.r (n + 1)

section Invariant

variable {n : ℕ} {g a : Cells} (g_bits : ∀ p, p ≤ n → IsBit (g p)) (leading : g 0 = 1#32)

include g_bits leading in
/-- Reducing the window keeps the division identity. -/
theorem divided_reduce {i : ℕ} {state : Division} (count : state.k + n = i)
    (quotient_bits : ∀ p, p < state.k → IsBit (state.div p))
    (window_bits : ∀ p, p ≤ n → IsBit (window n a i state.r p))
    (divides : cellsPoly a (i + 1) = cellsPoly state.div state.k * X * cellsPoly g (n + 1) +
      cellsPoly (window n a i state.r) (n + 1)) :
    Divided n g a i (divisionStep n g a i state) := by
  have ⟨r_eq, div_eq, k_eq⟩ := divisionStep_apply n g a i state rfl
  generalize multiple_eq : (if window n a i state.r 0 = 0#32 then 0#32 else 1#32) = multiple
    at r_eq div_eq
  have multiple_bit : IsBit multiple := by
    rw [← multiple_eq]
    split_ifs <;> simp [IsBit]
  constructor
  case count => omega
  case window_bits =>
    intro p inside
    rw [r_eq p inside]
    split_ifs
    · exact window_bits p inside
    · exact (window_bits p inside).xor (g_bits p inside)
  case quotient_bits =>
    intro p below
    rw [div_eq]
    rcases eq_or_ne p state.k with rfl | other
    · simpa using multiple_bit
    · rw [Function.update_of_ne other]
      exact quotient_bits p (by omega)
  case cleared =>
    rw [r_eq 0 (Nat.zero_le n)]
    by_cases zero : window n a i state.r 0 = 0#32
    · simp [← multiple_eq, zero]
    · simp [← multiple_eq, leading, (window_bits 0 (Nat.zero_le n)).eq_one zero]
  case divides =>
    have quotient : cellsPoly (Function.update state.div state.k multiple) (state.k + 1) =
        cellsPoly state.div state.k * X + C (coefficient multiple) := by
      rw [cellsPoly_succ, Function.update_self]
      congr 2
      exact cellsPoly_congr fun p below => Function.update_of_ne (by omega) _ _
    have remainder : cellsPoly (divisionStep n g a i state).r (n + 1) = wordPoly
        (fun p => coefficient (window n a i state.r p) - coefficient multiple * coefficient (g p))
        (n + 1) := by
      apply wordPoly_congr
      intro p below
      rw [r_eq p (by omega)]
      rcases multiple_bit with rfl | rfl
      · simp [coefficient]
      · simp [coefficient_one,
          coefficient_xor (window_bits p (by omega)) (g_bits p (by omega))]
    rw [k_eq, div_eq, quotient, remainder]
    exact wordPoly_reduce (coefficient multiple) divides

include g_bits leading in
theorem divided_first {state : Division} (empty : state.k = 0)
    (loaded : ∀ p, p ≤ n → state.r p = a p) (a_bits : ∀ p, p ≤ n → IsBit (a p)) :
    Divided n g a n (divisionStep n g a n state) := by
  apply divided_reduce g_bits leading (by omega) (by omega)
  · intro p inside
    rw [window_first, loaded p inside]
    exact a_bits p inside
  · rw [window_first, empty]
    simp only [cellsPoly, wordPoly_zero, zero_mul, zero_add]
    exact cellsPoly_congr fun p below => (loaded p (by omega)).symm

include g_bits leading in
theorem Divided.step {i : ℕ} {state : Division} (started : n ≤ i) (divided : Divided n g a i state)
    (a_bit : IsBit (a (i + 1))) :
    Divided n g a (i + 1) (divisionStep n g a (i + 1) state) := by
  have moved : ∀ p, p ≤ n →
      window n a (i + 1) state.r p = if p < n then state.r (p + 1) else a (i + 1) :=
    fun p inside => window_later (by omega) a state.r inside
  apply divided_reduce g_bits leading divided.count divided.quotient_bits
  · intro p inside
    rw [moved p inside]
    split_ifs with below
    · exact divided.window_bits (p + 1) below
    · exact a_bit
  · have window_eq : cellsPoly (window n a (i + 1) state.r) (n + 1) = wordPoly
        (fun p => if p < n then coefficient (state.r (p + 1)) else coefficient (a (i + 1)))
        (n + 1) := by
      apply wordPoly_congr
      intro p below
      rw [moved p (by omega), apply_ite coefficient]
    have cleared : (fun p => coefficient (state.r p)) 0 = 0 :=
      coefficient_eq_zero_iff.mpr divided.cleared
    have slid := wordPoly_slide divided.divides cleared
    rw [window_eq]
    exact slid

include g_bits leading in
/-- The division loop divides the frame by the generator. -/
theorem division_divided {last : ℕ} (long : n ≤ last) (a_bits : ∀ p, p ≤ last → IsBit (a p))
    (r div : Cells) : Divided n g a last (division n last g a r div) := by
  simp only [division, forUp_first (show n < last + 1 by omega)]
  change Divided n g a (last + 1 - 1) _
  apply forUp_induction (fun bound state => Divided n g a (bound - 1) state)
    (show n + 1 ≤ last + 1 by omega)
  · apply divided_first g_bits leading rfl
    · intro p inside
      simp [forUp_fill, Nat.lt_succ_of_le inside]
    · exact fun p inside => a_bits p (by omega)
  · intro i state lower upper divided
    obtain ⟨i, rfl⟩ : ∃ previous, i = previous + 1 := ⟨i - 1, by omega⟩
    exact divided.step g_bits leading (by omega) (a_bits (i + 1) (by omega))

end Invariant

end NetLab.Crc
