import NetLab.Hamming.Correction

/-!
# The code of the Hamming program

What the layout loop and the parity pass make of a frame is a code word
(`encoded_isCodeWord`), and the code words of two frames differ in three positions at
least (`codeWords_apart`). On any word of zeros and ones the recalculation pass ends
with the exclusive or of the positions that hold a one (`recalculate_syndrome`).
-/

namespace NetLab.Hamming

open NetLab.Imperative NetLab.Coding

/-- The positions of the redundancy bits. -/
def redundancyPositions (l : ℕ) : Finset ℕ :=
  {p ∈ Finset.Icc 1 l | p.isPowerOfTwo}

/-- The positions of the frame's bits, in ascending order. -/
def dataPositions (l : ℕ) : List ℕ :=
  (List.range' 1 l).filter fun p => ¬p.isPowerOfTwo

/-! ## Positions -/

/-- The powers of two up to `l` are those below the next one after it. -/
theorem two_pow_le_iff {l e : ℕ} (below : l + 1 ≤ 2 ^ e) (above : 2 ^ e < 2 * (l + 1)) (b : ℕ) :
    2 ^ b ≤ l ↔ b < e := by
  constructor
  · intro inside
    exact (Nat.pow_lt_pow_iff_right (by omega)).mp (by omega : 2 ^ b < 2 ^ e)
  · intro less
    have double : 2 ^ (b + 1) ≤ 2 ^ e := Nat.pow_le_pow_right (by omega) less
    rw [Nat.pow_succ] at double
    omega

theorem redundancyPositions_eq {l e : ℕ} (below : l + 1 ≤ 2 ^ e) (above : 2 ^ e < 2 * (l + 1)) :
    redundancyPositions l = (Finset.range e).image (2 ^ ·) := by
  ext p
  simp only [redundancyPositions, Finset.mem_filter, Finset.mem_Icc, Finset.mem_image,
    Finset.mem_range]
  constructor
  · rintro ⟨⟨_, inside⟩, b, rfl⟩
    exact ⟨b, (two_pow_le_iff below above b).mp inside, rfl⟩
  · rintro ⟨b, less, rfl⟩
    exact ⟨⟨Nat.one_le_two_pow, (two_pow_le_iff below above b).mpr less⟩, b, rfl⟩

theorem card_redundancyPositions {l e : ℕ} (below : l + 1 ≤ 2 ^ e)
    (above : 2 ^ e < 2 * (l + 1)) : (redundancyPositions l).card = e := by
  rw [redundancyPositions_eq below above,
    Finset.card_image_of_injective _ (Nat.pow_right_injective le_rfl), Finset.card_range]

theorem dataPositions_succ (l : ℕ) :
    dataPositions (l + 1) =
      dataPositions l ++ if (l + 1).isPowerOfTwo then [] else [l + 1] := by
  rw [dataPositions, List.range'_1_concat, List.filter_append, dataPositions, Nat.add_comm 1 l]
  by_cases power : (l + 1).isPowerOfTwo <;> simp [power]

theorem exists_count (l : ℕ) : ∃ count, count ≤ l ∧ l + 1 ≤ 2 ^ count ∧ 2 ^ count < 2 * (l + 1) ∧
    (dataPositions l).map frameIndex = List.range (l - count) := by
  induction l with
  | zero => exact ⟨0, le_rfl, by decide, by decide, rfl⟩
  | succ l ih =>
      rcases ih with ⟨count, count_le, below, above, indices⟩
      rcases Nat.lt_or_eq_of_le below with less | atPower
      · have ⟨exponent, notPower⟩ := log2_of_between less above
        refine ⟨count, by omega, by omega, by omega, ?_⟩
        have index : frameIndex (l + 1) = l - count := by
          simp only [frameIndex]
          omega
        rw [dataPositions_succ, if_neg notPower, List.map_append, indices,
          show l + 1 - count = l - count + 1 by omega, List.range_succ, List.map_singleton, index]
      · refine ⟨count + 1, by omega, ?_, ?_, ?_⟩
        · rw [Nat.pow_succ]
          omega
        · rw [Nat.pow_succ]
          omega
        · rw [dataPositions_succ, if_pos ⟨count, atPower⟩, List.append_nil, indices,
            Nat.add_sub_add_right]

/-- In order, the positions of the frame's bits have the indices of the frame. -/
theorem map_frameIndex {l count : ℕ} (below : l + 1 ≤ 2 ^ count)
    (above : 2 ^ count < 2 * (l + 1)) :
    (dataPositions l).map frameIndex = List.range (l - count) := by
  rcases exists_count l with ⟨found, _, found_below, found_above, indices⟩
  rw [indices, eq_of_two_pow_between found_below found_above below above]

theorem mem_dataPositions {l p : ℕ} :
    p ∈ dataPositions l ↔ (1 ≤ p ∧ p ≤ l) ∧ ¬p.isPowerOfTwo := by
  simp only [dataPositions, List.mem_filter, List.mem_range'_1, decide_eq_true_eq]
  exact and_congr_left fun _ => by omega

/-! ## Code words -/

/-- The word with `nrb` redundancy bits for the frame of `m` bits. -/
structure IsCodeWord (m : ℕ) (frame : Cells) (l nrb : ℕ) (encoded rb : Cells) : Prop where
  powers : ∀ b, 2 ^ b ≤ l ↔ b < nrb
  redundancy : ∀ b < nrb, encoded (2 ^ b) = rb b ∧ (rb b = 0 ∨ rb b = 1)
  data : (dataPositions l).map encoded = (List.range m).map frame
  last : ¬l.isPowerOfTwo
  count : nrb = (redundancyPositions l).card
  groups : ∀ b, Even {p ∈ Finset.Icc 1 l | encoded p = 1 ∧ p.testBit b}.card
  balanced : positionXor (ones encoded) l = 0

theorem cell_eq_zero_or_one (bit : Bool) : cell bit = 0 ∨ cell bit = 1 := by
  cases bit
  · exact Or.inl rfl
  · exact Or.inr rfl

/-- When the exclusive or of the positions is zero, each group has an even number of ones. -/
theorem even_group_of_balanced {word : Cells} {l : ℕ} (balanced : positionXor (ones word) l = 0)
    (b : ℕ) : Even {p ∈ Finset.Icc 1 l | word p = 1 ∧ p.testBit b}.card := by
  have parity := testBit_positionXor_iff_odd (ones word) b l
  rw [balanced, Nat.zero_testBit] at parity
  simp only [ones, decide_eq_true_eq] at parity
  rw [← Nat.not_odd_iff_even, ← parity]
  decide

section Encoded

variable {W : ℕ} {memory : Memory} {input : Input}

variable (bits : ∀ p, p < input.m → input.frame p = 0 ∨ input.frame p = 1)

include bits in
/-- The parity pass leaves in `rb` what it stores in the frame. -/
theorem sent_eq (fits : (main W memory input).l < 2 ^ W) {b : ℕ}
    (among : b < (main W memory input).nrb) :
    (main W memory input).sent b =
      cell ((positionXor (ones (laidOut memory input).df) (laidOut memory input).l).testBit b) := by
  have short : (laidOut memory input).l < 2 ^ W := fits
  have ⟨laid_below, laid_above⟩ := laidOut_between memory input
  rcases @parityPass_settled W (laidOut memory input).l short
    { df := (laidOut memory input).df, rb := memory.rb, i5 := 0, a1 := memory.a1 }
    (fun p positive inside => marked_iff bits positive inside) with ⟨count, settled⟩
  have same := eq_of_two_pow_between settled.below settled.above laid_below laid_above
  have stored := settled.rb b (same ▸ among)
  rwa [Nat.zero_add] at stored

include bits in
theorem encoded_data (fits : (main W memory input).l < 2 ^ W) {p : ℕ}
    (listed : p ∈ dataPositions (laidOut memory input).l) :
    (main W memory input).encoded p = input.frame (frameIndex p) := by
  rw [mem_dataPositions] at listed
  rw [encoded_eq_withChecks bits fits, withChecks, if_neg fun both => listed.2 both.2]
  exact (laidOut_data listed.1.1 listed.1.2 listed.2).2

end Encoded

/-- The layout loop and the parity pass make a code word of every frame. -/
theorem encoded_isCodeWord (W : ℕ) (memory : Memory) (input : Input)
    (bits : ∀ p, p < input.m → input.frame p = 0 ∨ input.frame p = 1)
    (fits : (main W memory input).l < 2 ^ W) :
    IsCodeWord input.m input.frame (main W memory input).l (main W memory input).nrb
      (main W memory input).encoded (main W memory input).sent := by
  have ⟨below, above⟩ := laidOut_between memory input
  have laid := laidOut_laid memory input
  have complete : (laidOut memory input).j = input.m := (layout_laid _ _ _).2
  have count := card_redundancyPositions below above
  have balanced := positionXor_encoded bits fits
  constructor
  case powers => exact two_pow_le_iff below above
  case redundancy =>
    intro b among
    have inside := (two_pow_le_iff below above b).mpr among
    refine ⟨?_, ?_⟩
    · rw [sent_eq bits fits among, encoded_eq_withChecks bits fits, withChecks,
        if_pos ⟨Nat.lt_succ_of_le inside, b, rfl⟩, Nat.log2_two_pow]
    · rw [sent_eq bits fits among]
      exact cell_eq_zero_or_one _
  case data =>
    have copied : (dataPositions (laidOut memory input).l).map (main W memory input).encoded =
        ((dataPositions (laidOut memory input).l).map frameIndex).map input.frame := by
      rw [List.map_map]
      exact List.map_congr_left fun p listed => encoded_data bits fits listed
    change (dataPositions (laidOut memory input).l).map _ = _
    have split := laid.split
    rw [copied, map_frameIndex below above, ← complete, ← split, Nat.add_sub_cancel]
  case last => exact laid.ends complete
  case count => exact count.symm
  case groups => exact even_group_of_balanced balanced
  case balanced => exact balanced

theorem encoded_isCodeWord_single :
    IsCodeWord 1 (fun _ => 1) (main 4 clearMemory (singleBit 1)).l
      (main 4 clearMemory (singleBit 1)).nrb (main 4 clearMemory (singleBit 1)).encoded
      (main 4 clearMemory (singleBit 1)).sent :=
  encoded_isCodeWord 4 clearMemory (singleBit 1) (fun _ _ => Or.inr rfl) (by decide +kernel)

/-! ## Distance -/

theorem IsCodeWord.zero_or_one {m l nrb : ℕ} {frame encoded rb : Cells}
    (code : IsCodeWord m frame l nrb encoded rb)
    (bits : ∀ p, p < m → frame p = 0 ∨ frame p = 1) {p : ℕ} (positive : 1 ≤ p) (inside : p ≤ l) :
    encoded p = 0 ∨ encoded p = 1 := by
  by_cases power : p.isPowerOfTwo
  · rcases power with ⟨b, rfl⟩
    have ⟨stored, bit⟩ := code.redundancy b ((code.powers b).mp inside)
    rwa [← stored] at bit
  · have listed : encoded p ∈ (dataPositions l).map encoded :=
      List.mem_map_of_mem (mem_dataPositions.mpr ⟨⟨positive, inside⟩, power⟩)
    rw [code.data] at listed
    rcases List.mem_map.mp listed with ⟨index, index_lt, copied⟩
    rw [← copied]
    exact bits index (List.mem_range.mp index_lt)

/-- Where the words of two frames are the same, so are the frames. -/
theorem IsCodeWord.frame_eq {m l nrb : ℕ} {frame other encoded otherEncoded rb otherRb : Cells}
    (code : IsCodeWord m frame l nrb encoded rb)
    (otherCode : IsCodeWord m other l nrb otherEncoded otherRb)
    (same : ∀ p, 1 ≤ p → p ≤ l → encoded p = otherEncoded p) :
    ∀ p < m, frame p = other p := by
  have copied : (dataPositions l).map encoded = (dataPositions l).map otherEncoded := by
    apply List.map_congr_left
    intro p listed
    have ⟨⟨positive, inside⟩, _⟩ := mem_dataPositions.mp listed
    exact same p positive inside
  rw [code.data, otherCode.data] at copied
  intro p p_lt
  exact List.map_inj_left.mp copied p (List.mem_range.mpr p_lt)

theorem IsCodeWord.distance {m l nrb : ℕ} {frame other encoded otherEncoded rb otherRb : Cells}
    (code : IsCodeWord m frame l nrb encoded rb)
    (otherCode : IsCodeWord m other l nrb otherEncoded otherRb)
    (bits : ∀ p, p < m → frame p = 0 ∨ frame p = 1)
    (otherBits : ∀ p, p < m → other p = 0 ∨ other p = 1)
    (differ : ∃ p < m, frame p ≠ other p) :
    3 ≤ {p ∈ Finset.Icc 1 l | encoded p ≠ otherEncoded p}.card := by
  have unequal : ∀ p, 1 ≤ p → p ≤ l →
      (encoded p ≠ otherEncoded p ↔ ones encoded p ≠ ones otherEncoded p) := by
    intro p positive inside
    rcases code.zero_or_one bits positive inside with left | left <;>
      rcases otherCode.zero_or_one otherBits positive inside with right | right <;>
      simp [ones, left, right]
  have somewhere : ∃ p, 1 ≤ p ∧ p ≤ l ∧ ones encoded p ≠ ones otherEncoded p := by
    by_contra nowhere
    rcases differ with ⟨p, p_lt, frames_differ⟩
    apply frames_differ
    apply code.frame_eq otherCode _ p p_lt
    intro q positive inside
    by_contra apart
    exact nowhere ⟨q, positive, inside, (unequal q positive inside).mp apart⟩
  have apart := three_le_distance (code.balanced.trans otherCode.balanced.symm) somewhere
  rwa [Finset.filter_congr fun p listed =>
    unequal p (Finset.mem_Icc.mp listed).1 (Finset.mem_Icc.mp listed).2]

/-- The words sent for two different frames of the same size differ in at least three positions. -/
theorem codeWords_apart (W : ℕ) (memory otherMemory : Memory) (input other : Input)
    (size : other.m = input.m)
    (bits : ∀ p, p < input.m → input.frame p = 0 ∨ input.frame p = 1)
    (otherBits : ∀ p, p < input.m → other.frame p = 0 ∨ other.frame p = 1)
    (fits : (main W memory input).l < 2 ^ W)
    (differ : ∃ p < input.m, input.frame p ≠ other.frame p) :
    3 ≤ {p ∈ Finset.Icc 1 (main W memory input).l |
      (main W memory input).encoded p ≠ (main W otherMemory other).encoded p}.card := by
  have sameLength : (main W otherMemory other).l = (main W memory input).l := by
    rw [main_l, main_l, size]
  have code := encoded_isCodeWord W memory input bits fits
  have otherCode := encoded_isCodeWord W otherMemory other (size ▸ otherBits)
    (sameLength ▸ fits)
  have sameCount : (main W otherMemory other).nrb = (main W memory input).nrb := by
    rw [otherCode.count, code.count, sameLength]
  rw [size, sameLength, sameCount] at otherCode
  exact code.distance otherCode bits otherBits differ

theorem codeWords_apart_single :
    3 ≤ {p ∈ Finset.Icc 1 (main 4 clearMemory (singleBit 1)).l |
      (main 4 clearMemory (singleBit 1)).encoded p ≠
        (main 4 clearMemory (singleBit 0)).encoded p}.card :=
  codeWords_apart 4 clearMemory clearMemory (singleBit 1) (singleBit 0) rfl
    (fun _ _ => Or.inr rfl) (fun _ _ => Or.inl rfl) (by decide +kernel)
    ⟨0, by decide, by decide⟩

/-! ## Syndrome -/

/-- The recalculation pass on a word of zeros and ones: the error position is the exclusive or of
the positions that hold a one, whose bits replace the redundancy bits. -/
theorem recalculate_syndrome (W l nrb : ℕ) (state : Check) (fits : l < 2 ^ W)
    (count : nrb = (redundancyPositions l).card) :
    errorPosition nrb (recalculate W l state).1.rb = positionXor (ones state.df) l ∧
      (∀ b, 2 ^ b ≤ l → (recalculate W l state).1.df (2 ^ b) =
        cell ((positionXor (ones state.df) l).testBit b)) ∧
      ∀ p, p ∉ redundancyPositions l → (recalculate W l state).1.df p = state.df p := by
  rcases recalculate_settled fits state with ⟨settledCount, settled, _⟩
  have nrb_eq : nrb = settledCount :=
    count.trans (card_redundancyPositions settled.below settled.above)
  subst nrb_eq
  refine ⟨errorPosition_recalculate fits state settled.below settled.above, ?_, ?_⟩
  · intro b inside
    rw [settled.df, withChecks, if_pos ⟨Nat.lt_succ_of_le inside, b, rfl⟩, Nat.log2_two_pow]
  · intro p outside
    rw [settled.df, withChecks, if_neg]
    rintro ⟨p_lt, power⟩
    have positive := Nat.pos_of_isPowerOfTwo power
    exact outside (Finset.mem_filter.mpr
      ⟨Finset.mem_Icc.mpr ⟨positive, Nat.le_of_lt_succ p_lt⟩, power⟩)

/-- A word of which every bit is set. -/
def allOnes : Check where
  df _ := 1
  rb _ := 0
  i5 := 0
  a1 _ := 0

theorem recalculate_syndrome_allOnes :
    errorPosition 3 (recalculate 4 5 allOnes).1.rb = positionXor (ones allOnes.df) 5 ∧
      (∀ b, 2 ^ b ≤ 5 → (recalculate 4 5 allOnes).1.df (2 ^ b) =
        cell ((positionXor (ones allOnes.df) 5).testBit b)) ∧
      ∀ p, p ∉ redundancyPositions 5 → (recalculate 4 5 allOnes).1.df p = allOnes.df p :=
  recalculate_syndrome 4 5 3 allOnes (by decide) (by decide)

end NetLab.Hamming
