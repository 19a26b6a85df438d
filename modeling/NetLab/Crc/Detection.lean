import NetLab.Crc.Division

/-!
# What the sender and the receiver establish

The receiver accepts exactly the multiples of the generator
(`receiver_accepts_iff_dvd`). The sender's quotient and remainder satisfy the
division identity, and the frame it transmits is a multiple of the generator
(`sender_division`), so the receiver rejects it after any error burst that is
shorter than the generator (`burst_rejected`).
-/

namespace NetLab.Crc

open NetLab.Imperative NetLab.Coding Polynomial

/-- The cells after the first one, as the remainder is printed. -/
theorem cellsPoly_of_cleared {r : Cells} (cleared : r 0 = 0#32) (n : ℕ) :
    cellsPoly r (n + 1) = cellsPoly (fun i => r (1 + i)) n := by
  simp only [cellsPoly, Nat.add_comm n 1, wordPoly_add_length]
  simp [wordPoly_succ, coefficient_eq_zero_iff.mpr cleared]

theorem listPoly_remainder (r : Cells) (n : ℕ) :
    listPoly ((List.range' 1 n).map r) = cellsPoly (fun i => r (1 + i)) n := by
  rw [List.range'_eq_map_range, List.map_map]
  exact listPoly_map_range (fun i => r (1 + i)) n

theorem noErrorFlag_iff (n : ℕ) (r : Cells) :
    noErrorFlag n r = true ↔ ∀ i, 1 ≤ i → i ≤ n → r i = 0#32 := by
  suffices flag : noErrorFlag n r = true ↔ ∀ i, 1 ≤ i → i < n + 1 → r i = 0#32 by
    simpa only [Nat.lt_succ_iff] using flag
  apply forUp_induction (fun bound (flag : Bool) =>
    flag = true ↔ ∀ i, 1 ≤ i → i < bound → r i = 0#32) (show 1 ≤ n + 1 by omega)
  · simp only [true_iff]
    intro i lower upper
    omega
  · intro i flag lower _ holds
    by_cases zero : r i = 0#32
    · simp only [zero, ne_eq, not_true_eq_false, if_false, holds]
      constructor
      · intro zeros j j_lower j_upper
        rcases Nat.lt_or_eq_of_le (Nat.le_of_lt_succ j_upper) with below | rfl
        · exact zeros j j_lower below
        · exact zero
      · exact fun zeros j j_lower j_upper => zeros j j_lower (by omega)
    · simp only [zero, ne_eq, not_false_eq_true, if_true, Bool.false_eq_true, false_iff]
      exact fun zeros => zero (zeros i lower (by omega))

theorem verdict_eq_noError_iff (n : ℕ) (r : Cells) :
    verdict n r = "\n No Error\n" ↔ ∀ i, 1 ≤ i → i ≤ n → r i = 0#32 := by
  rw [← noErrorFlag_iff, verdict]
  split <;> simp [*]

theorem verdict_eq_error_iff (n : ℕ) (r : Cells) :
    verdict n r = "\nError" ↔ ¬∀ i, 1 ≤ i → i ≤ n → r i = 0#32 := by
  rw [← noErrorFlag_iff, verdict]
  split <;> simp [*]

/-! ## The receiver -/

section Receiver

variable {n m : ℕ} {typed : Cells} {memory : Memory}
  (g_bits : ∀ p, p ≤ n → IsBit (memory.g p)) (leading : memory.g 0 = 1#32)
  (typed_bits : ∀ p, p ≤ m → IsBit (typed p)) (long : n ≤ m)

include g_bits leading typed_bits long in
theorem receiverPass_divided :
    Divided n memory.g (readCells (m + 1) typed memory.a) m
      (division n m memory.g (readCells (m + 1) typed memory.a) memory.r memory.div) := by
  apply division_divided g_bits leading long
  intro p inside
  rw [readCells_apply, if_pos (by omega)]
  exact typed_bits p inside

include g_bits leading typed_bits long in
/-- The remainder is zero exactly for the multiples of the generator. -/
theorem receiver_remainder_iff :
    (∀ i, 1 ≤ i → i ≤ n → (receiverPass n m typed memory).memory.r i = 0#32) ↔
      cellsPoly memory.g (n + 1) ∣ cellsPoly typed (m + 1) := by
  have divided := receiverPass_divided g_bits leading typed_bits long
  have frame : cellsPoly (readCells (m + 1) typed memory.a) (m + 1) = cellsPoly typed (m + 1) := by
    apply cellsPoly_congr
    intro p below
    rw [readCells_apply, if_pos below]
  have leading_one : coefficient (memory.g 0) = 1 := by rw [leading, coefficient_one]
  have decided := dvd_iff_remainder leading_one (coefficient_eq_zero_iff.mpr divided.cleared)
    divided.divides
  simp only [coefficient_eq_zero_iff] at decided
  rw [← frame]
  exact decided.symm

end Receiver

/-- The receiver accepts a frame exactly when the generator divides it. -/
theorem receiver_accepts_iff_dvd (n m : ℕ) (typed : Cells) (memory : Memory)
    (g_bits : ∀ p, p ≤ n → IsBit (memory.g p)) (leading : memory.g 0 = 1#32)
    (typed_bits : ∀ p, p ≤ m → IsBit (typed p)) (long : n ≤ m) :
    verdict n (receiverPass n m typed memory).memory.r = "\n No Error\n" ↔
      cellsPoly memory.g (n + 1) ∣ cellsPoly typed (m + 1) :=
  (verdict_eq_noError_iff n _).trans (receiver_remainder_iff g_bits leading typed_bits long)

/-- A memory whose generator is `x + 1`, with the frame `x + 1` in it. -/
def linearMemory : Memory :=
  { a := fun _ => 1#32, g := fun _ => 1#32, r := fun _ => 0#32, div := fun _ => 0#32 }

theorem receiver_accepts_linear :
    verdict 1 (receiverPass 1 1 (fun _ => 1#32) linearMemory).memory.r = "\n No Error\n" ↔
      cellsPoly linearMemory.g 2 ∣ cellsPoly (fun _ => 1#32) 2 :=
  receiver_accepts_iff_dvd 1 1 (fun _ => 1#32) linearMemory (fun _ _ => Or.inr rfl) rfl
    (fun _ _ => Or.inr rfl) le_rfl

/-! ## The sender -/

section Sender

variable {n m : ℕ} {memory : Memory}

theorem padFrame_apply (n m : ℕ) (a : Cells) (p : ℕ) :
    padFrame n m a p = if m < p ∧ p ≤ m + n then 0#32 else a p := by
  simp only [padFrame, forUp_fill, Nat.succ_le_iff, Nat.lt_succ_iff]

theorem appendRemainder_apply (n m : ℕ) (r a : Cells) (p : ℕ) :
    appendRemainder n m r a p = if m < p ∧ p ≤ m + n then r (p - m) else a p := by
  have appended : appendRemainder n m r a =
      fun p => if m + 1 ≤ p ∧ p < m + n + 1 then r (p - m) else a p := by
    refine (forUp_induction (fun bound (current : Cells × ℕ) => current.2 + m = bound ∧
      current.1 = fun p => if m + 1 ≤ p ∧ p < bound then r (p - m) else a p)
      (show m + 1 ≤ m + n + 1 by omega) ?_ ?_).2
    · refine ⟨by omega, ?_⟩
      funext p
      rw [if_neg (by omega)]
    · rintro i ⟨cells, j⟩ lower _ ⟨counted, rfl⟩
      simp only at counted ⊢
      refine ⟨by omega, ?_⟩
      funext p
      rcases eq_or_ne p i with rfl | other
      · rw [Function.update_self, if_pos (by omega)]
        congr 1
        omega
      · rw [Function.update_of_ne other]
        exact if_congr (by omega) rfl rfl
  simp only [appended, Nat.succ_le_iff, Nat.lt_succ_iff]

theorem senderPass_a (n m : ℕ) (memory : Memory) (p : ℕ) :
    (senderPass n m memory).memory.a p =
      if m < p ∧ p ≤ m + n then (senderPass n m memory).memory.r (p - m) else memory.a p := by
  change appendRemainder n m (senderPass n m memory).memory.r (padFrame n m memory.a) p = _
  rw [appendRemainder_apply, padFrame_apply]
  split_ifs <;> rfl

variable (g_bits : ∀ p, p ≤ n → IsBit (memory.g p)) (leading : memory.g 0 = 1#32)
  (a_bits : ∀ p, p ≤ m → IsBit (memory.a p)) (long : n ≤ m)

include g_bits leading a_bits long in
theorem senderPass_divided :
    Divided n memory.g (padFrame n m memory.a) (m + n)
      (division n (m + n) memory.g (padFrame n m memory.a) memory.r memory.div) := by
  apply division_divided g_bits leading (by omega)
  intro p inside
  rw [padFrame_apply]
  split_ifs with pad
  · exact Or.inl rfl
  · exact a_bits p (by omega)

theorem cellsPoly_padFrame (n m : ℕ) (a : Cells) :
    cellsPoly (padFrame n m a) (m + n + 1) = cellsPoly a (m + 1) * X ^ n := by
  have data : cellsPoly (padFrame n m a) (m + 1) = cellsPoly a (m + 1) := by
    apply cellsPoly_congr
    intro p below
    rw [padFrame_apply, if_neg (by omega)]
  rw [show m + n + 1 = m + 1 + n by omega, ← data]
  apply wordPoly_pad
  intro p below
  rw [padFrame_apply, if_pos (by omega), coefficient_eq_zero_iff]

theorem cellsPoly_transmitted (n m : ℕ) (memory : Memory) :
    cellsPoly (senderPass n m memory).memory.a (m + n + 1) =
      cellsPoly memory.a (m + 1) * X ^ n +
        cellsPoly (fun i => (senderPass n m memory).memory.r (1 + i)) n := by
  have data : cellsPoly (senderPass n m memory).memory.a (m + 1) = cellsPoly memory.a (m + 1) := by
    apply cellsPoly_congr
    intro p below
    rw [senderPass_a, if_neg (by omega)]
  have appended : cellsPoly (fun i => (senderPass n m memory).memory.a (m + 1 + i)) n =
      cellsPoly (fun i => (senderPass n m memory).memory.r (1 + i)) n := by
    apply cellsPoly_congr
    intro p below
    rw [senderPass_a, if_pos (by omega), show m + 1 + p - m = 1 + p by omega]
  rw [show m + n + 1 = m + 1 + n by omega, cellsPoly_add_length, data, appended]

include g_bits leading a_bits long in
/-- The frame times `x ^ n` is the quotient times the generator plus the remainder. -/
theorem sender_identity :
    cellsPoly memory.a (m + 1) * X ^ n =
      listPoly (senderPass n m memory).quotient * cellsPoly memory.g (n + 1) +
        listPoly (senderPass n m memory).remainder := by
  have divided := senderPass_divided g_bits leading a_bits long
  rw [← cellsPoly_padFrame, divided.divides, cellsPoly_of_cleared divided.cleared]
  simp only [senderPass, listPoly_map_range, listPoly_remainder]

include g_bits leading a_bits long in
theorem dvd_transmitted :
    cellsPoly memory.g (n + 1) ∣ cellsPoly (senderPass n m memory).memory.a (m + n + 1) := by
  rw [cellsPoly_transmitted, sender_identity g_bits leading a_bits long]
  simp only [senderPass, listPoly_remainder, add_assoc, CharTwo.add_self_eq_zero, add_zero]
  exact dvd_mul_left _ _

include g_bits leading a_bits long in
theorem transmitted_bits {p : ℕ} (inside : p ≤ m + n) :
    IsBit ((senderPass n m memory).memory.a p) := by
  have divided := senderPass_divided g_bits leading a_bits long
  rw [senderPass_a]
  split_ifs with appended
  · exact divided.window_bits (p - m) (by omega)
  · exact a_bits p (by omega)

include g_bits leading long in
theorem receiver_after_sender_iff {typed : Cells}
    (typed_bits : ∀ p, p ≤ m + n → IsBit (typed p)) :
    (∀ i, 1 ≤ i → i ≤ n →
        (receiverPass n (m + n) typed (senderPass n m memory).memory).memory.r i = 0#32) ↔
      cellsPoly memory.g (n + 1) ∣ cellsPoly typed (m + n + 1) :=
  @receiver_remainder_iff n (m + n) typed (senderPass n m memory).memory g_bits leading typed_bits
    (by omega)

end Sender

theorem properGenerator.long {n m : ℕ} {g : Cells} (proper : properGenerator n m g) : n ≤ m := by
  simp only [properGenerator, not_or, Nat.not_lt] at proper
  exact proper.1

theorem properGenerator.leading {n m : ℕ} {g : Cells} (proper : properGenerator n m g)
    (g_bits : ∀ p, p ≤ n → IsBit (g p)) : g 0 = 1#32 := by
  simp only [properGenerator, not_or, not_not] at proper
  exact (g_bits 0 (Nat.zero_le n)).eq_one proper.2.1

theorem properGenerator.constant {n m : ℕ} {g : Cells} (proper : properGenerator n m g) :
    g n ≠ 0#32 := by
  simp only [properGenerator, not_or, not_not] at proper
  exact proper.2.2

/-- The printed quotient and remainder divide the padded frame, the transmitted frame starts with
the data, and the receiver finds no remainder in it. -/
theorem sender_division (n m : ℕ) (memory : Memory)
    (g_bits : ∀ p, p ≤ n → IsBit (memory.g p)) (a_bits : ∀ p, p ≤ m → IsBit (memory.a p))
    (proper : properGenerator n m memory.g) :
    ((senderPass n m memory).quotient.length = m + 1 ∧
        ∀ bit ∈ (senderPass n m memory).quotient, IsBit bit) ∧
      ((senderPass n m memory).remainder.length = n ∧
        ∀ bit ∈ (senderPass n m memory).remainder, IsBit bit) ∧
      cellsPoly memory.a (m + 1) * X ^ n =
        listPoly (senderPass n m memory).quotient * cellsPoly memory.g (n + 1) +
          listPoly (senderPass n m memory).remainder ∧
      (transmittedFrame n m memory).take (m + 1) = (List.range (m + 1)).map memory.a ∧
      (receiverPass n (m + n) (fun p => (transmittedFrame n m memory).getD p 0#32)
        (senderPass n m memory).memory).remainder = List.replicate n 0#32 := by
  have long := proper.long
  have leading := proper.leading g_bits
  have divided := senderPass_divided g_bits leading a_bits long
  have count := divided.count
  refine ⟨⟨?_, ?_⟩, ⟨?_, ?_⟩, sender_identity g_bits leading a_bits long, ?_, ?_⟩
  · simp only [senderPass, List.length_map, List.length_range]
    omega
  · intro bit bit_mem
    rcases List.mem_map.mp bit_mem with ⟨p, p_mem, rfl⟩
    exact divided.quotient_bits p (List.mem_range.mp p_mem)
  · simp [senderPass]
  · intro bit bit_mem
    rcases List.mem_map.mp bit_mem with ⟨p, p_mem, rfl⟩
    rw [List.mem_range'_1] at p_mem
    exact divided.window_bits p (by omega)
  · rw [transmittedFrame, ← List.map_take, List.take_range, Nat.min_eq_left (by omega)]
    apply List.map_congr_left
    intro p p_mem
    rw [List.mem_range] at p_mem
    rw [senderPass_a, if_neg (by omega)]
  · have typed : ∀ p, p ≤ m + n → (transmittedFrame n m memory).getD p 0#32 =
        (senderPass n m memory).memory.a p := by
      intro p inside
      simp [transmittedFrame, Nat.lt_succ_of_le inside]
    have typed_bits : ∀ p, p ≤ m + n → IsBit ((transmittedFrame n m memory).getD p 0#32) := by
      intro p inside
      rw [typed p inside]
      exact transmitted_bits g_bits leading a_bits long inside
    have zeros := (receiver_after_sender_iff g_bits leading long typed_bits).mpr (by
      rw [cellsPoly_congr fun p below => typed p (Nat.le_of_lt_succ below)]
      exact dvd_transmitted g_bits leading a_bits long)
    rw [List.eq_replicate_iff]
    refine ⟨by simp [receiverPass], ?_⟩
    intro cell cell_mem
    rcases List.mem_map.mp cell_mem with ⟨p, p_mem, rfl⟩
    rw [List.mem_range'_1] at p_mem
    exact zeros p (by omega) (by omega)

theorem sender_division_linear :
    ((senderPass 1 1 linearMemory).quotient.length = 2 ∧
        ∀ bit ∈ (senderPass 1 1 linearMemory).quotient, IsBit bit) ∧
      ((senderPass 1 1 linearMemory).remainder.length = 1 ∧
        ∀ bit ∈ (senderPass 1 1 linearMemory).remainder, IsBit bit) ∧
      cellsPoly linearMemory.a 2 * X ^ 1 =
        listPoly (senderPass 1 1 linearMemory).quotient * cellsPoly linearMemory.g 2 +
          listPoly (senderPass 1 1 linearMemory).remainder ∧
      (transmittedFrame 1 1 linearMemory).take 2 = (List.range 2).map linearMemory.a ∧
      (receiverPass 1 2 (fun p => (transmittedFrame 1 1 linearMemory).getD p 0#32)
        (senderPass 1 1 linearMemory).memory).remainder = List.replicate 1 0#32 :=
  sender_division 1 1 linearMemory (fun _ _ => Or.inr rfl) (fun _ _ => Or.inr rfl) (by decide)

/-- An error burst shorter than the generator does not get past the receiver. -/
theorem burst_rejected (n m start : ℕ) (memory : Memory) (pattern : Cells)
    (g_bits : ∀ p, p ≤ n → IsBit (memory.g p)) (leading : memory.g 0 = 1#32)
    (constant : memory.g n = 1#32) (a_bits : ∀ p, p ≤ m → IsBit (memory.a p)) (long : n ≤ m)
    (pattern_bits : ∀ p, p ≤ m + n → IsBit (pattern p))
    (burst : ∀ p, p ≤ m + n → pattern p = 1#32 → start ≤ p ∧ p < start + n)
    (nonzero : ∃ p, p ≤ m + n ∧ pattern p = 1#32) :
    verdict n (receiverPass n (m + n)
      (fun p => (senderPass n m memory).memory.a p ^^^ pattern p)
      (senderPass n m memory).memory).memory.r = "\nError" := by
  have sent_bits : ∀ p, p < m + n + 1 → IsBit ((senderPass n m memory).memory.a p) :=
    fun p below => transmitted_bits g_bits leading a_bits long (Nat.le_of_lt_succ below)
  have received_bits : ∀ p, p ≤ m + n →
      IsBit ((senderPass n m memory).memory.a p ^^^ pattern p) :=
    fun p inside => (sent_bits p (by omega)).xor (pattern_bits p inside)
  have received : cellsPoly (fun p => (senderPass n m memory).memory.a p ^^^ pattern p)
      (m + n + 1) = cellsPoly (senderPass n m memory).memory.a (m + n + 1) +
        cellsPoly pattern (m + n + 1) :=
    cellsPoly_xor sent_bits fun p below => pattern_bits p (Nat.le_of_lt_succ below)
  apply (verdict_eq_error_iff n _).mpr
  rw [receiver_after_sender_iff g_bits leading long received_bits, received,
    dvd_add_right (dvd_transmitted g_bits leading a_bits long)]
  apply not_dvd_of_burst start
  · rw [leading, coefficient_one]
  · rw [constant, coefficient_one]
    exact one_ne_zero
  · intro p below letter
    have inside := Nat.le_of_lt_succ below
    apply burst p inside
    exact (pattern_bits p inside).eq_one fun zero => letter (coefficient_eq_zero_iff.mpr zero)
  · obtain ⟨p, inside, one⟩ := nonzero
    refine ⟨p, by omega, ?_⟩
    rw [one, coefficient_one]
    exact one_ne_zero

def firstBit : Cells := fun p => if p = 0 then 1#32 else 0#32

theorem burst_rejected_firstBit :
    verdict 1 (receiverPass 1 2
      (fun p => (senderPass 1 1 linearMemory).memory.a p ^^^ firstBit p)
      (senderPass 1 1 linearMemory).memory).memory.r = "\nError" := by
  apply burst_rejected 1 1 0 linearMemory firstBit (fun _ _ => Or.inr rfl) rfl rfl
    (fun _ _ => Or.inr rfl) le_rfl
  · intro p _
    by_cases first : p = 0 <;> simp [IsBit, firstBit, first]
  · intro p _ one
    by_cases first : p = 0
    · omega
    · simp [firstBit, first] at one
  · exact ⟨0, by omega, rfl⟩

end NetLab.Crc
