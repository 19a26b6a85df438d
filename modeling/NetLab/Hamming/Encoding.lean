import NetLab.Coding.PositionXor
import NetLab.Hamming.Basic

/-!
# What the Hamming passes compute

Specifications of the pieces of `main`, each in terms of the word it starts on.
The layout loop is described by the invariant `Laid`. Both passes over the
redundancy bits are described by `withChecks`: the word in which the
redundancy positions below a bound hold the parity of their group.

The argument that carries both passes is that the group of `2 ^ b` contains no
other power of two, so the redundancy bits stored earlier in the same pass do
not enter it.
-/

namespace NetLab.Hamming

open NetLab.Imperative NetLab.Coding

/-! ## Reading the frame -/

theorem readFrame_apply (m : ℕ) (frame db : Cells) (p : ℕ) :
    readFrame m frame db p = if p < m then frame (m - 1 - p) else db p := by
  simp [readFrame, forDown_fill (fun i => frame (m - 1 - i))]

theorem reverseFrame_apply (m : ℕ) (temp db : Cells) (p : ℕ) :
    reverseFrame m temp db p = if p < m then db (m - 1 - p) else db p := by
  have reversed : ∀ q, q < m →
      (forDown 0 m (fun i (current : Cells × ℕ) =>
        (Function.update current.1 current.2 (db i), current.2 + 1)) (temp, 0)).1 q =
      db (m - 1 - q) := by
    refine (forDown_induction (fun bound (current : Cells × ℕ) => current.2 = m - bound ∧
      ∀ q, q < m - bound → current.1 q = db (m - 1 - q)) (Nat.zero_le m) ?_ ?_).2
    · simp
    · rintro i ⟨cells, j⟩ _ upper ⟨rfl, copied⟩
      refine ⟨by simp only; omega, ?_⟩
      intro q q_lt
      rcases eq_or_ne q (m - (i + 1)) with rfl | other
      · simp only [Function.update_self]
        congr 1
        omega
      · simp only [Function.update_of_ne other]
        apply copied
        omega
  simp only [reverseFrame, forUp_fill, Nat.zero_le, true_and]
  by_cases inside : p < m
  · simp only [inside, if_true]
    exact reversed p inside
  · simp [inside]

/-- The two reversals cancel: the frame is laid out in the order it was typed in. -/
theorem reverseFrame_readFrame (m : ℕ) (frame temp db : Cells) {p : ℕ} (inside : p < m) :
    reverseFrame m temp (readFrame m frame db) p = frame p := by
  rw [reverseFrame_apply, if_pos inside, readFrame_apply, if_pos (by omega)]
  congr 1
  omega

/-! ## Layout -/

/-- The index in the frame of the bit at a position that is not a power of two. -/
def frameIndex (position : ℕ) : ℕ :=
  position - 1 - (position.log2 + 1)

structure Laid (m : ℕ) (db : Cells) (state : Layout) : Prop where
  next : state.i = state.l + 1
  split : state.j + state.nrb = state.l
  used : state.j ≤ m
  power : state.k = 2 ^ state.nrb
  below : state.i ≤ state.k
  above : state.k < 2 * state.i
  redundancy : ∀ p, p < state.i → p.isPowerOfTwo → state.df p = -1
  data : ∀ p, 1 ≤ p → p < state.i → ¬p.isPowerOfTwo →
    frameIndex p < state.j ∧ state.df p = db (frameIndex p)
  ends : state.j = m → ¬state.l.isPowerOfTwo

/-- Between two consecutive powers of two the exponent of the next one is fixed. -/
theorem log2_of_between {p e : ℕ} (below : p < 2 ^ e) (above : 2 ^ e < 2 * p) :
    p.log2 + 1 = e ∧ ¬p.isPowerOfTwo := by
  have nonzero : p ≠ 0 := by omega
  obtain ⟨e, rfl⟩ : ∃ previous, e = previous + 1 := by
    rcases e with _ | previous
    · omega
    · exact ⟨previous, rfl⟩
  have log : p.log2 = e := (Nat.log2_eq_iff nonzero).mpr ⟨by omega, below⟩
  refine ⟨by omega, ?_⟩
  rintro ⟨b, rfl⟩
  rw [Nat.log2_two_pow] at log
  subst log
  omega

/-- The next power of two determines its exponent. -/
theorem eq_of_two_pow_between {a x y : ℕ} (x_below : a ≤ 2 ^ x) (x_above : 2 ^ x < 2 * a)
    (y_below : a ≤ 2 ^ y) (y_above : 2 ^ y < 2 * a) : x = y := by
  have le_of_lt_double : ∀ {s t : ℕ}, 2 ^ s < 2 * 2 ^ t → s ≤ t := by
    intro s t less
    rw [Nat.mul_comm, ← Nat.pow_succ] at less
    exact Nat.le_of_lt_succ ((Nat.pow_lt_pow_iff_right (by omega)).mp less)
  exact Nat.le_antisymm (le_of_lt_double (by omega)) (le_of_lt_double (by omega))

theorem Laid.redundancy_step {m : ℕ} {db : Cells} {state : Layout} (laid : Laid m db state)
    (more : state.j < m) (atPower : state.i = state.k) :
    Laid m db
      { state with
        df := Function.update state.df state.i (-1)
        k := state.k * 2
        nrb := state.nrb + 1
        l := state.l + 1
        i := state.i + 1 } where
  next := by simp [laid.next]
  split := by simp only; have := laid.split; omega
  used := laid.used
  power := by simp [laid.power, Nat.pow_succ]
  below := by simp only; have := laid.next; omega
  above := by simp only; omega
  redundancy := by
    intro p p_lt power
    rcases eq_or_ne p state.i with rfl | other
    · simp
    · simp only [Function.update_of_ne other]
      exact laid.redundancy p (by simp only at p_lt; omega) power
  data := by
    intro p positive p_lt notPower
    have isPower : state.i.isPowerOfTwo := ⟨state.nrb, atPower.trans laid.power⟩
    have other : p ≠ state.i := by
      rintro rfl
      exact notPower isPower
    simp only [Function.update_of_ne other]
    exact laid.data p positive (by simp only at p_lt; omega) notPower
  ends := by
    intro done
    simp only at done
    omega

theorem Laid.data_step {m : ℕ} {db : Cells} {state : Layout} (laid : Laid m db state)
    (more : state.j < m) (notAtPower : state.i ≠ state.k) :
    Laid m db
      { state with
        df := Function.update state.df state.i (db state.j)
        j := state.j + 1
        l := state.l + 1
        i := state.i + 1 } := by
  have below : state.i < 2 ^ state.nrb := by
    have := laid.below
    rw [← laid.power]
    omega
  have ⟨exponent, notPower⟩ := log2_of_between below (laid.power ▸ laid.above)
  have index : frameIndex state.i = state.j := by
    have := laid.next
    have := laid.split
    simp only [frameIndex]
    omega
  constructor
  case next => simp [laid.next]
  case split => simp only; have := laid.split; omega
  case used => exact more
  case power => exact laid.power
  case below => simp only; have := laid.power; omega
  case above => simp only; have := laid.above; omega
  case redundancy =>
    intro p p_lt power
    have other : p ≠ state.i := by
      rintro rfl
      exact notPower power
    simp only [Function.update_of_ne other]
    exact laid.redundancy p (by simp only at p_lt; omega) power
  case data =>
    intro p positive p_lt p_notPower
    rcases eq_or_ne p state.i with rfl | other
    · simp [index]
    · have ⟨earlier, copied⟩ := laid.data p positive (by simp only at p_lt; omega) p_notPower
      simp only [Function.update_of_ne other]
      exact ⟨by omega, copied⟩
  case ends =>
    intro _
    simp only [← laid.next]
    exact notPower

theorem layoutLoop_laid {m : ℕ} {db : Cells} {state : Layout} (laid : Laid m db state) :
    Laid m db (layoutLoop m db state) ∧ (layoutLoop m db state).j = m := by
  fun_induction layoutLoop m db state with
  | case1 state more atPower ih => exact ih (laid.redundancy_step more atPower)
  | case2 state more notAtPower ih => exact ih (laid.data_step more notAtPower)
  | case3 state done =>
      have := laid.used
      exact ⟨laid, by omega⟩

theorem layout_laid (m : ℕ) (db df : Cells) :
    Laid m db (layout m db df) ∧ (layout m db df).j = m := by
  apply layoutLoop_laid
  constructor <;> simp
  · exact fun power => absurd power Nat.not_isPowerOfTwo_zero
  · intro p positive p_lt
    omega
  · exact fun _ => Nat.not_isPowerOfTwo_zero

/-! ## One redundancy bit -/

theorem onePosition_two_pow (b : ℕ) (i4 : ℤ) : onePosition (2 ^ b) i4 = i4 + b + 1 := by
  induction b generalizing i4 with
  | zero => simp [onePosition]
  | succ b ih =>
      have larger : 2 ^ (b + 1) ≠ 1 := by simp
      have half : 2 ^ (b + 1) / 2 = 2 ^ b := by simp [Nat.pow_succ]
      rw [onePosition, if_pos (Nat.two_pow_pos _), if_neg larger, half, ih]
      omega

theorem binaryConversion_of_lt {i7 i6 p : ℕ} (a1 : Cells) (before : p < i6) :
    binaryConversion i7 i6 a1 p = a1 p := by
  fun_induction binaryConversion i7 i6 a1 with
  | case1 i6 a1 positive => exact Function.update_of_ne (by omega) _ _
  | case2 => omega
  | case3 i7 i6 a1 positive notOne notZero ih =>
      rw [ih (by omega), Function.update_of_ne (by omega)]
  | case4 => rfl

/-- A cell of the scratch array holds `1` exactly when the number has that binary digit. -/
theorem binaryConversion_eq_one_iff {i7 i6 p : ℕ} {a1 : Cells} (reached : i6 ≤ p)
    (reset : ∀ q, q = p → a1 q ≠ 1) :
    binaryConversion i7 i6 a1 p = 1 ↔ i7.testBit (p - i6) := by
  fun_induction binaryConversion i7 i6 a1 with
  | case1 i6 a1 positive =>
      rcases eq_or_ne p i6 with rfl | other
      · simp
      · have later : p - i6 ≠ 0 := by omega
        simp only [Function.update_of_ne other, reset p rfl, false_iff]
        simp [Nat.testBit_one_eq_true_iff_self_eq_zero, later]
  | case2 => omega
  | case3 i7 i6 a1 positive notOne notZero ih =>
      rcases eq_or_ne p i6 with rfl | other
      · rw [binaryConversion_of_lt _ (Nat.lt_succ_self p), Function.update_self]
        simp only [Nat.sub_self, Nat.testBit_zero, decide_eq_true_eq]
        omega
      · have digit : p - i6 = p - (i6 + 1) + 1 := by omega
        rw [ih (by omega) (by rintro q rfl; simpa [other] using reset q rfl), digit,
          Nat.testBit_succ]
  | case4 i7 i6 a1 notPositive =>
      have zero : i7 = 0 := by omega
      simp [zero, reset p rfl]

def ones (df : Cells) (p : ℕ) : Bool :=
  df p = 1

/-- The scan of a group counts, up to parity, the bit of the exclusive or of the positions. -/
theorem countOnes_spec {W l b : ℕ} (narrow : b < W) (df a1 : Cells) :
    (countOnes W l (2 ^ b) df a1).1 % 2 = 1 ↔ (positionXor (ones df) l).testBit b := by
  have index : (onePosition (2 ^ b) (-1)).toNat = b := by
    rw [onePosition_two_pow]
    omega
  simp only [countOnes, index]
  apply forUp_induction
    (fun bound (current : ℕ × Cells) =>
      current.1 % 2 = 1 ↔ (positionXor (ones df) (bound - 1)).testBit b) (by omega)
  · simp [positionXor]
  · rintro i2 ⟨i3, scratch⟩ lower _ counted
    have digit : binaryConversion i2 0
        (forUp 0 W (fun i6 a1 => Function.update a1 i6 (-1)) scratch) b = 1 ↔ i2.testBit b := by
      rw [binaryConversion_eq_one_iff (Nat.zero_le b), Nat.sub_zero]
      rintro q rfl
      simp [forUp_fill (fun _ => (-1 : ℤ)), narrow]
    obtain ⟨i2, rfl⟩ : ∃ previous, i2 = previous + 1 := ⟨i2 - 1, by omega⟩
    simp only [Nat.add_sub_cancel, positionXor, Nat.testBit_xor, digit] at counted ⊢
    by_cases inGroup : (i2 + 1).testBit b
    · by_cases one : df (i2 + 1) = 1
      · simp only [inGroup, one, ones, if_true, decide_true, Bool.xor_true]
        cases parity : (positionXor (ones df) i2).testBit b <;>
          simp [parity] at counted ⊢ <;> omega
      · simpa [inGroup, one, ones] using counted
    · have unaffected : (if ones df (i2 + 1) then i2 + 1 else 0).testBit b = false := by
        split <;> simp [inGroup]
      simpa [inGroup, unaffected] using counted

def cell (bit : Bool) : ℤ :=
  if bit then 1 else 0

theorem cell_eq_one_iff (bit : Bool) : cell bit = 1 ↔ bit := by
  cases bit <;> simp [cell]

/-- `settle` at `2 ^ b` stores bit `b` of the exclusive or of the positions that hold a one. -/
theorem settle_spec {W l b : ℕ} (narrow : b < W) (state : Check) :
    (settle W l (2 ^ b) state).df = Function.update state.df (2 ^ b)
        (cell ((positionXor (ones state.df) l).testBit b)) ∧
      (settle W l (2 ^ b) state).rb = Function.update state.rb state.i5
        (cell ((positionXor (ones state.df) l).testBit b)) ∧
      (settle W l (2 ^ b) state).i5 = state.i5 + 1 := by
  have stored : (if (countOnes W l (2 ^ b) state.df state.a1).1 % 2 = 0 then (0 : ℤ) else 1) =
      cell ((positionXor (ones state.df) l).testBit b) := by
    have counted := countOnes_spec (l := l) narrow state.df state.a1
    cases parity : (positionXor (ones state.df) l).testBit b
    · rw [if_pos (by simp [parity] at counted; omega)]
      rfl
    · rw [if_neg (by simp [parity] at counted; omega)]
      rfl
  simp only [settle, stored]
  exact ⟨trivial, trivial, trivial⟩

/-! ## The passes over the redundancy bits -/

/-- The word with every redundancy position below `bound` holding the parity of its group. -/
def withChecks (word : Cells) (l bound : ℕ) : Cells := fun p =>
  if p < bound ∧ p.isPowerOfTwo then cell ((positionXor (ones word) l).testBit p.log2) else word p

theorem withChecks_zero (word : Cells) (l : ℕ) : withChecks word l 1 = word := by
  funext p
  apply if_neg
  rintro ⟨p_lt, power⟩
  have := Nat.pos_of_isPowerOfTwo power
  omega

theorem withChecks_succ_of_not_power {word : Cells} {l bound : ℕ}
    (notPower : ¬bound.isPowerOfTwo) :
    withChecks word l (bound + 1) = withChecks word l bound := by
  funext p
  apply if_congr _ rfl rfl
  apply and_congr_left
  intro power
  have other : p ≠ bound := by
    rintro rfl
    exact notPower power
  omega

theorem withChecks_succ_two_pow (word : Cells) (l b : ℕ) :
    withChecks word l (2 ^ b + 1) = Function.update (withChecks word l (2 ^ b)) (2 ^ b)
      (cell ((positionXor (ones word) l).testBit b)) := by
  funext p
  rcases eq_or_ne p (2 ^ b) with rfl | other
  · rw [Function.update_self]
    simp [withChecks, Nat.isPowerOfTwo]
  · rw [Function.update_of_ne other]
    exact if_congr (and_congr_left fun _ => by omega) rfl rfl

/-- The group of `2 ^ b` is not affected by the redundancy bits stored before it. -/
theorem testBit_withChecks (word : Cells) (l b : ℕ) :
    (positionXor (ones (withChecks word l (2 ^ b))) l).testBit b =
      (positionXor (ones word) l).testBit b := by
  apply testBit_positionXor_congr
  intro p _ _ inGroup
  have notEarlier : ¬(p < 2 ^ b ∧ p.isPowerOfTwo) := by
    rintro ⟨p_lt, _⟩
    rw [Nat.testBit_lt_two_pow p_lt] at inGroup
    contradiction
  simp only [ones, withChecks, if_neg notEarlier]

theorem settle_withChecks {W l b : ℕ} (narrow : b < W) (word : Cells) {state : Check}
    (current : state.df = withChecks word l (2 ^ b)) :
    (settle W l (2 ^ b) state).df = withChecks word l (2 ^ b + 1) ∧
      (settle W l (2 ^ b) state).rb = Function.update state.rb state.i5
        (cell ((positionXor (ones word) l).testBit b)) ∧
      (settle W l (2 ^ b) state).i5 = state.i5 + 1 := by
  have ⟨df, rb, i5⟩ := settle_spec (l := l) narrow state
  rw [current, testBit_withChecks] at df rb
  exact ⟨df.trans (withChecks_succ_two_pow word l b).symm, rb, i5⟩

theorem exponent_lt_width {W l b : ℕ} (fits : l < 2 ^ W) (inside : 2 ^ b ≤ l) : b < W :=
  (Nat.pow_lt_pow_iff_right (by omega)).mp (inside.trans_lt fits)

/-- The state of a pass over the redundancy bits before position `bound`: `count` of them have been
stored, in `rb` from cell `first` on. -/
structure Settled (word : Cells) (l first bound count : ℕ) (current : Check) : Prop where
  df : current.df = withChecks word l bound
  i5 : current.i5 = first + count
  below : bound ≤ 2 ^ count
  above : 2 ^ count < 2 * bound
  rb : ∀ b < count,
    current.rb (first + b) = cell ((positionXor (ones word) l).testBit b)

namespace Settled

variable {W l first bound count : ℕ} {word : Cells} {current : Check}

theorem start (state : Check) (l : ℕ) : Settled state.df l state.i5 1 0 state where
  df := (withChecks_zero state.df l).symm
  i5 := rfl
  below := le_rfl
  above := by decide
  rb := by omega

theorem isPowerOfTwo_iff (settled : Settled word l first bound count current) :
    bound.isPowerOfTwo ↔ bound = 2 ^ count := by
  constructor
  · intro power
    by_contra other
    have below := settled.below
    exact (log2_of_between (by omega) settled.above).2 power
  · rintro rfl
    exact ⟨count, rfl⟩

theorem store (settled : Settled word l first (2 ^ count) count current) (fits : l < 2 ^ W)
    (inside : 2 ^ count ≤ l) :
    Settled word l first (2 ^ count + 1) (count + 1) (settle W l (2 ^ count) current) := by
  have ⟨df, rb, i5⟩ := settle_withChecks (exponent_lt_width fits inside) word settled.df
  have positive := Nat.two_pow_pos count
  constructor
  case df => exact df
  case i5 => rw [i5, settled.i5, Nat.add_assoc]
  case below =>
    rw [Nat.pow_succ]
    omega
  case above =>
    rw [Nat.pow_succ]
    omega
  case rb =>
    intro b b_lt
    rw [rb, settled.i5]
    rcases eq_or_ne b count with rfl | other
    · rw [Function.update_self]
    · rw [Function.update_of_ne (by omega)]
      exact settled.rb b (by omega)

theorem skip (settled : Settled word l first bound count current) (other : bound ≠ 2 ^ count) :
    Settled word l first (bound + 1) count current := by
  have below := settled.below
  have above := settled.above
  constructor
  case df =>
    rw [withChecks_succ_of_not_power fun power => other (settled.isPowerOfTwo_iff.mp power)]
    exact settled.df
  case i5 => exact settled.i5
  case below => omega
  case above => omega
  case rb => exact settled.rb

end Settled

/-- The parity pass stores, at every position marked `-1`, the parity of its group. -/
theorem parityPass_settled {W l : ℕ} (fits : l < 2 ^ W) {state : Check}
    (marked : ∀ p, 1 ≤ p → p ≤ l → (state.df p = -1 ↔ p.isPowerOfTwo)) :
    ∃ count, Settled state.df l state.i5 (l + 1) count (parityPass W l state) := by
  apply forUp_induction (fun bound (current : Check) =>
    ∃ count, Settled state.df l state.i5 bound count current) (by omega)
  · exact ⟨0, Settled.start state l⟩
  · rintro i1 current lower upper ⟨count, settled⟩
    have unmarked : current.df i1 = state.df i1 := by
      rw [settled.df]
      exact if_neg (by omega)
    have mark : current.df i1 = -1 ↔ i1 = 2 ^ count := by
      rw [unmarked, marked i1 lower (by omega), settled.isPowerOfTwo_iff]
    by_cases power : i1 = 2 ^ count
    · rw [if_pos (mark.mpr power)]
      subst power
      exact ⟨count + 1, settled.store fits (by omega)⟩
    · rw [if_neg (power ∘ mark.mp)]
      exact ⟨count, settled.skip power⟩

theorem parityPass_spec {W l : ℕ} (fits : l < 2 ^ W) {state : Check}
    (marked : ∀ p, 1 ≤ p → p ≤ l → (state.df p = -1 ↔ p.isPowerOfTwo)) :
    (parityPass W l state).df = withChecks state.df l (l + 1) := by
  rcases parityPass_settled fits marked with ⟨count, settled⟩
  exact settled.df

/-- The state of the recalculation pass before position `bound`, for the received word `word`. -/
structure Recalculated (word : Cells) (l bound : ℕ) (current : Check × ℕ) : Prop where
  df : current.1.df = withChecks word l bound
  power : current.2 = 2 ^ current.1.i5
  below : bound ≤ current.2
  above : current.2 < 2 * bound
  rb : ∀ b, b < current.1.i5 → current.1.rb b = cell ((positionXor (ones word) l).testBit b)

theorem recalculate_settled {W l : ℕ} (fits : l < 2 ^ W) (state : Check) :
    ∃ count, Settled state.df l 0 (l + 1) count (recalculate W l state).1 ∧
      (recalculate W l state).2 = 2 ^ count := by
  apply forUp_induction (fun bound (current : Check × ℕ) =>
    ∃ count, Settled state.df l 0 bound count current.1 ∧ current.2 = 2 ^ count) (by omega)
  · exact ⟨0, Settled.start { state with i5 := 0 } l, rfl⟩
  · rintro i1 ⟨current, k⟩ lower upper ⟨count, settled, rfl⟩
    by_cases power : i1 = 2 ^ count
    · subst power
      rw [if_pos rfl]
      exact ⟨count + 1, settled.store fits (by omega), (Nat.pow_succ ..).symm⟩
    · rw [if_neg power]
      exact ⟨count, settled.skip power, rfl⟩

theorem recalculate_spec {W l : ℕ} (fits : l < 2 ^ W) (state : Check) :
    Recalculated state.df l (l + 1) (recalculate W l state) := by
  rcases recalculate_settled fits state with ⟨count, settled, power⟩
  have i5 : (recalculate W l state).1.i5 = count := settled.i5.trans (Nat.zero_add count)
  constructor
  case df => exact settled.df
  case power => rw [power, i5]
  case below => exact power ▸ settled.below
  case above => exact power ▸ settled.above
  case rb =>
    intro b b_lt
    rw [← settled.rb b (i5 ▸ b_lt), Nat.zero_add]

/-- Adding up the powers of two of the redundancy bits gives back the number they are bits of. -/
theorem errorPosition_spec {nrb x : ℕ} {rb : Cells} (small : x < 2 ^ nrb)
    (bits : ∀ b, b < nrb → rb b = cell (x.testBit b)) : errorPosition nrb rb = x := by
  have summed : errorPosition nrb rb = x % 2 ^ nrb := by
    refine (forUp_induction (fun bound (current : ℕ × ℕ) =>
      current.1 = x % 2 ^ bound ∧ current.2 = 2 ^ bound) (Nat.zero_le nrb) ?_ ?_).1
    · simp [Nat.mod_one]
    · rintro i ⟨ep, j⟩ _ i_lt ⟨rfl, rfl⟩
      refine ⟨?_, rfl⟩
      simp only [bits i i_lt, cell_eq_one_iff, Nat.testBit_eq_decide_div_mod_eq,
        decide_eq_true_eq, Nat.mod_pow_succ]
      rcases Nat.mod_two_eq_zero_or_one (x / 2 ^ i) with digit | digit <;> simp [digit]
  exact summed.trans (Nat.mod_eq_of_lt small)

theorem errorPosition_recalculate {W l nrb : ℕ} (fits : l < 2 ^ W) (state : Check)
    (below : l + 1 ≤ 2 ^ nrb) (above : 2 ^ nrb < 2 * (l + 1)) :
    errorPosition nrb (recalculate W l state).1.rb = positionXor (ones state.df) l := by
  have checked := recalculate_spec fits state
  have count : nrb = (recalculate W l state).1.i5 :=
    eq_of_two_pow_between below above (checked.power ▸ checked.below)
      (checked.power ▸ checked.above)
  apply errorPosition_spec (positionXor_lt_two_pow below)
  intro b among
  exact checked.rb b (count ▸ among)

end NetLab.Hamming
