import NetLab.Hamming.Encoding

/-!
# Locating a changed bit

The code word that `main` builds has exclusive or of positions zero, and the
recalculation prints the exclusive or of the positions of the word it ran on.
Storing a zero at `eb`, which is what the bit change does whatever the cell
held, therefore makes `main` print `eb` exactly when the code word carries a
one there.
-/

namespace NetLab.Hamming

open NetLab.Imperative NetLab.Coding

theorem exists_redundancy (m : ℕ) : ∃ r, m + r < 2 ^ r := by
  refine ⟨m + 2, ?_⟩
  have := Nat.lt_two_pow_self (n := m)
  simp only [Nat.pow_succ]
  omega

/-- How many redundancy bits a frame of `m` bits needs. -/
def redundancyCount (m : ℕ) : ℕ :=
  Nat.find (exists_redundancy m)

theorem redundancyCount_spec (m : ℕ) : m + redundancyCount m < 2 ^ redundancyCount m :=
  Nat.find_spec (exists_redundancy m)

theorem redundancyCount_le {m r : ℕ} (enough : m + r < 2 ^ r) : redundancyCount m ≤ r :=
  Nat.find_min' (exists_redundancy m) enough

def codeLength (m : ℕ) : ℕ :=
  m + redundancyCount m

/-- The code word of the frame has a one at this position: the frame's own bit off the powers of
two, and the parity of the frame bits of its group on them. -/
def CarriesOne (m : ℕ) (frame : Cells) (position : ℕ) : Prop :=
  if position.isPowerOfTwo then
    Odd {p ∈ Finset.Icc 1 (codeLength m) |
      (¬p.isPowerOfTwo ∧ frame (frameIndex p) = 1) ∧ p.testBit position.log2}.card
  else frame (frameIndex position) = 1

/-! ## Code words -/

/-- With its redundancy bits settled, a word without ones at the powers of two has exclusive or
of positions zero. -/
theorem positionXor_withChecks {word : Cells} {l : ℕ}
    (clear : ∀ p, p ≤ l → p.isPowerOfTwo → word p ≠ 1) :
    positionXor (ones (withChecks word l (l + 1))) l = 0 := by
  apply Nat.eq_of_testBit_eq
  intro b
  rw [Nat.zero_testBit]
  rcases Nat.lt_or_ge l (2 ^ b) with short | inside
  · exact Nat.testBit_lt_two_pow (positionXor_lt_two_pow short)
  · have group : (positionXor (ones (withChecks word l (l + 1))) l).testBit b =
        (positionXor (Function.update (ones word) (2 ^ b)
          ((positionXor (ones word) l).testBit b)) l).testBit b := by
      apply testBit_positionXor_congr
      intro p _ p_le inGroup
      rcases eq_or_ne p (2 ^ b) with rfl | other
      · have power : (2 ^ b).isPowerOfTwo := ⟨b, rfl⟩
        simp only [ones, withChecks, Function.update_self, power, and_true,
          if_pos (Nat.lt_succ_of_le inside), cell_eq_one_iff, Nat.log2_two_pow]
        exact Bool.decide_eq_true
      · have notPower : ¬p.isPowerOfTwo := by
          rintro ⟨c, rfl⟩
          rw [Nat.testBit_two_pow, decide_eq_true_eq] at inGroup
          exact other (by rw [inGroup])
        simp [ones, withChecks, Function.update_of_ne other, notPower]
    have noOne : ones word (2 ^ b) = false := by
      simpa [ones] using clear (2 ^ b) inside ⟨b, rfl⟩
    rw [group, positionXor_update Nat.one_le_two_pow inside, Nat.testBit_xor, noOne]
    cases parity : (positionXor (ones word) l).testBit b <;> simp

/-! ## The run of `main` -/

section Run

variable {W : ℕ} {memory : Memory} {input : Input}

def orderedFrame (memory : Memory) (input : Input) : Cells :=
  reverseFrame input.m memory.temp (readFrame input.m input.frame memory.db)

/-- The word after the layout loop of `main`. -/
def laidOut (memory : Memory) (input : Input) : Layout :=
  layout input.m (orderedFrame memory input) memory.df

theorem laidOut_laid (memory : Memory) (input : Input) :
    Laid input.m (orderedFrame memory input) (laidOut memory input) :=
  (layout_laid _ _ _).1

theorem laidOut_between (memory : Memory) (input : Input) :
    (laidOut memory input).l + 1 ≤ 2 ^ (laidOut memory input).nrb ∧
      2 ^ (laidOut memory input).nrb < 2 * ((laidOut memory input).l + 1) := by
  have laid := laidOut_laid memory input
  rw [← laid.power, ← laid.next]
  exact ⟨laid.below, laid.above⟩

/-- The layout loop adds as few redundancy bits as the length of the frame allows. -/
theorem laidOut_l (memory : Memory) (input : Input) :
    (laidOut memory input).l = codeLength input.m := by
  have laid := laidOut_laid memory input
  have complete : (laidOut memory input).j = input.m := (layout_laid _ _ _).2
  have next := laid.next
  have split := laid.split
  have power := laid.power
  have below := laid.below
  have above := laid.above
  have notPower := laid.ends complete
  suffices count : redundancyCount input.m = (laidOut memory input).nrb by
    simp only [codeLength, count]
    omega
  refine (Nat.find_eq_iff _).mpr ⟨by omega, ?_⟩
  -- Fewer redundancy bits would not do: downwards from one less, a power of two fits below.
  have tooFew : ∀ fewer, fewer < (laidOut memory input).nrb →
      2 ^ ((laidOut memory input).nrb - 1 - fewer) ≤
        input.m + ((laidOut memory input).nrb - 1 - fewer) := by
    intro fewer
    induction fewer with
    | zero =>
        intro positive
        obtain ⟨count, count_eq⟩ : ∃ count, (laidOut memory input).nrb = count + 1 :=
          ⟨(laidOut memory input).nrb - 1, by omega⟩
        simp only [count_eq, Nat.pow_succ, Nat.add_sub_cancel, Nat.sub_zero] at power split ⊢
        have other : (laidOut memory input).l ≠ 2 ^ count := fun same => notPower ⟨count, same⟩
        omega
    | succ fewer ih =>
        intro fewer_lt
        have previous := ih (by omega)
        rw [show (laidOut memory input).nrb - 1 - fewer =
          (laidOut memory input).nrb - 1 - (fewer + 1) + 1 by omega, Nat.pow_succ] at previous
        have := Nat.two_pow_pos ((laidOut memory input).nrb - 1 - (fewer + 1))
        omega
  intro r r_lt
  have := tooFew ((laidOut memory input).nrb - 1 - r) (by omega)
  rw [show (laidOut memory input).nrb - 1 - ((laidOut memory input).nrb - 1 - r) = r by omega]
    at this
  omega

/-- The redundancy bits that the layout loop counts. -/
theorem laidOut_nrb (memory : Memory) (input : Input) :
    (laidOut memory input).nrb = redundancyCount input.m := by
  have complete : (laidOut memory input).j = input.m := (layout_laid _ _ _).2
  have split := (laidOut_laid memory input).split
  rw [complete, laidOut_l, codeLength] at split
  exact Nat.add_left_cancel split

theorem main_l : (main W memory input).l = codeLength input.m :=
  laidOut_l memory input

theorem laidOut_data {p : ℕ} (positive : 1 ≤ p) (inside : p ≤ (laidOut memory input).l)
    (notPower : ¬p.isPowerOfTwo) :
    frameIndex p < input.m ∧
      (laidOut memory input).df p = input.frame (frameIndex p) := by
  have laid := laidOut_laid memory input
  have next := laid.next
  have ⟨index_lt, copied⟩ := laid.data p positive (by omega) notPower
  have index_lt_m := index_lt.trans_le laid.used
  exact ⟨index_lt_m, copied.trans (reverseFrame_readFrame _ _ _ _ index_lt_m)⟩

theorem laidOut_redundancy {p : ℕ} (inside : p ≤ (laidOut memory input).l)
    (power : p.isPowerOfTwo) : (laidOut memory input).df p = -1 := by
  have laid := laidOut_laid memory input
  have next := laid.next
  exact laid.redundancy p (by omega) power

theorem marked_iff (bits : ∀ p, p < input.m → input.frame p = 0 ∨ input.frame p = 1) {p : ℕ}
    (positive : 1 ≤ p) (inside : p ≤ (laidOut memory input).l) :
    (laidOut memory input).df p = -1 ↔ p.isPowerOfTwo := by
  constructor
  · intro mark
    by_contra notPower
    have ⟨index_lt, copied⟩ := laidOut_data positive inside notPower
    have bit := bits (frameIndex p) index_lt
    omega
  · exact laidOut_redundancy inside

variable (bits : ∀ p, p < input.m → input.frame p = 0 ∨ input.frame p = 1)

include bits in
theorem encoded_eq_withChecks (fits : (main W memory input).l < 2 ^ W) :
    (main W memory input).encoded =
      withChecks (laidOut memory input).df (laidOut memory input).l
        ((laidOut memory input).l + 1) := by
  apply parityPass_spec fits
  intro p positive inside
  exact marked_iff bits positive inside

include bits in
theorem positionXor_encoded (fits : (main W memory input).l < 2 ^ W) :
    positionXor (ones (main W memory input).encoded) (main W memory input).l = 0 := by
  rw [encoded_eq_withChecks bits fits]
  apply positionXor_withChecks
  intro p inside power
  rw [laidOut_redundancy inside power]
  omega

include bits in
theorem encoded_eq_one_iff (fits : (main W memory input).l < 2 ^ W) {p : ℕ} (positive : 1 ≤ p)
    (inside : p ≤ (main W memory input).l) :
    (main W memory input).encoded p = 1 ↔ CarriesOne input.m input.frame p := by
  change p ≤ (laidOut memory input).l at inside
  rw [encoded_eq_withChecks bits fits]
  by_cases power : p.isPowerOfTwo
  · have group : ∀ q, q ∈ Finset.Icc 1 (laidOut memory input).l →
        (ones (laidOut memory input).df q ∧ q.testBit p.log2 ↔
          (¬q.isPowerOfTwo ∧ input.frame (frameIndex q) = 1) ∧ q.testBit p.log2) := by
      intro q q_mem
      rw [Finset.mem_Icc] at q_mem
      apply and_congr_left
      intro _
      by_cases q_power : q.isPowerOfTwo
      · simp [ones, laidOut_redundancy q_mem.2 q_power, q_power]
      · simp [ones, (laidOut_data q_mem.1 q_mem.2 q_power).2, q_power]
    rw [CarriesOne, if_pos power, ← laidOut_l memory input, ← Finset.filter_congr group,
      ← testBit_positionXor_iff_odd]
    simp only [withChecks, power, and_true, if_pos (Nat.lt_succ_of_le inside), cell_eq_one_iff]
  · rw [CarriesOne, if_neg power, withChecks, if_neg (by simp [power]),
      (laidOut_data positive inside power).2]

/-- The bit change stores a zero, whatever the cell held. -/
theorem changeBit_eq (eb : ℕ) (df : Cells) : changeBit eb df = Function.update df eb 0 := by
  simp [changeBit]

/-- The printed error position is the exclusive or of the positions of the received word. -/
theorem main_ep (fits : (main W memory input).l < 2 ^ W) :
    (main W memory input).ep =
      positionXor (ones (main W memory input).received) (main W memory input).l := by
  have ⟨below, above⟩ := laidOut_between memory input
  exact errorPosition_recalculate fits _ below above

include bits in
theorem main_ep_eq (fits : (main W memory input).l < 2 ^ W) (lower : 1 ≤ input.eb)
    (upper : input.eb ≤ (main W memory input).l) :
    (main W memory input).ep =
      if (main W memory input).encoded input.eb = 1 then input.eb else 0 := by
  have received : ones (main W memory input).received =
      Function.update (ones (main W memory input).encoded) input.eb false := by
    funext p
    change ones (changeBit input.eb (main W memory input).encoded) p = _
    rw [changeBit_eq]
    rcases eq_or_ne p input.eb with rfl | other
    · simp [ones]
    · simp [ones, Function.update_of_ne other]
  rw [main_ep fits, received, positionXor_update lower upper, positionXor_encoded bits fits,
    Nat.zero_xor]
  by_cases one : (main W memory input).encoded input.eb = 1 <;> simp [ones, one]

end Run

/-- The error at `eb` is located, in a word that differs from the code word there and nowhere
else, exactly when the code word of the frame carries a one at `eb`. -/
theorem error_located_iff_carriesOne (W : ℕ) (memory : Memory) (input : Input)
    (bits : ∀ p, p < input.m → input.frame p = 0 ∨ input.frame p = 1)
    (fits : (main W memory input).l < 2 ^ W) (lower : 1 ≤ input.eb)
    (upper : input.eb ≤ (main W memory input).l) :
    ((main W memory input).ep = input.eb ∧
        ∀ p, (main W memory input).received p ≠ (main W memory input).encoded p ↔ p = input.eb) ↔
      CarriesOne input.m input.frame input.eb := by
  rw [main_ep_eq bits fits lower upper, ← encoded_eq_one_iff bits fits lower upper]
  constructor
  · rintro ⟨located, _⟩
    by_contra notOne
    rw [if_neg notOne] at located
    omega
  · intro one
    refine ⟨if_pos one, ?_⟩
    intro p
    change changeBit input.eb (main W memory input).encoded p ≠ _ ↔ _
    rw [changeBit_eq]
    rcases eq_or_ne p input.eb with rfl | other
    · simp [one]
    · simp [other]

def clearMemory : Memory :=
  { db := fun _ => 0, temp := fun _ => 0, rb := fun _ => 0, df := fun _ => 0, a1 := fun _ => 0 }

/-- A frame of a single bit, with the error at position three, the place of that bit. -/
def singleBit (bit : ℤ) : Input :=
  { m := 1, frame := fun _ => bit, r := 2, eb := 3 }

theorem error_located_one :
    ((main 4 clearMemory (singleBit 1)).ep = 3 ∧
        ∀ p, (main 4 clearMemory (singleBit 1)).received p ≠
          (main 4 clearMemory (singleBit 1)).encoded p ↔ p = 3) ↔
      CarriesOne 1 (fun _ => 1) 3 :=
  error_located_iff_carriesOne 4 clearMemory (singleBit 1) (fun _ _ => Or.inr rfl)
    (by decide +kernel) (by decide) (by decide +kernel)

/-- A changed zero goes unnoticed: the code word is 000 and position three is reported as zero. -/
theorem error_not_located_zero :
    (main 4 clearMemory (singleBit 0)).l < 2 ^ 4 ∧
      1 ≤ (singleBit 0).eb ∧ (singleBit 0).eb ≤ (main 4 clearMemory (singleBit 0)).l ∧
      (∀ p, p < (singleBit 0).m → (singleBit 0).frame p = 0 ∨ (singleBit 0).frame p = 1) ∧
      ¬((main 4 clearMemory (singleBit 0)).ep = (singleBit 0).eb ∧
        ∀ p, (main 4 clearMemory (singleBit 0)).received p ≠
          (main 4 clearMemory (singleBit 0)).encoded p ↔ p = (singleBit 0).eb) := by
  refine ⟨by decide +kernel, by decide, by decide +kernel, fun _ _ => Or.inl rfl, ?_⟩
  rintro ⟨located, _⟩
  revert located
  decide +kernel

end NetLab.Hamming
