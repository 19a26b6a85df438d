import NetLab.Coding.ErrorPatterns
import NetLab.Crc.Detection

/-!
# What the receiver does not detect

The receiver accepts the frames that the sender could have sent. Of the errors of one kind, all are
found out exactly if the generator has the property that is known for it.
-/

namespace NetLab.Crc

open NetLab.Imperative NetLab.Coding Polynomial

/-- The receiver rejects what the sender has transmitted, with the bits of the pattern flipped. -/
def Rejects (n m : ℕ) (memory : Memory) (pattern : Cells) : Prop :=
  let sent := (senderPass n m memory).memory
  verdict n (receiverPass n (m + n) (fun p => sent.a p ^^^ pattern p) sent).memory.r = "\nError"

/-- How many of the first cells are not zero. -/
def ones (cells : Cells) (count : ℕ) : ℕ :=
  weight (fun p => coefficient (cells p)) count

/-- The bits of a pair of positions. -/
def pair (first second : ℕ) : Cells :=
  fun p => if p = first ∨ p = second then 1#32 else 0#32

section Frames

variable {n m : ℕ} {memory : Memory} {typed pattern : Cells}
  (g_bits : ∀ p, p ≤ n → IsBit (memory.g p)) (a_bits : ∀ p, p ≤ m → IsBit (memory.a p))
  (proper : properGenerator n m memory.g)

include g_bits a_bits proper in
theorem rejects_iff (pattern_bits : ∀ p, p ≤ m + n → IsBit (pattern p)) :
    Rejects n m memory pattern ↔
      ¬cellsPoly memory.g (n + 1) ∣ cellsPoly pattern (m + n + 1) := by
  have long := proper.long
  have leading := proper.leading g_bits
  have sent_bits : ∀ p, p ≤ m + n → IsBit ((senderPass n m memory).memory.a p) :=
    fun p inside => transmitted_bits g_bits leading a_bits long inside
  have received_bits : ∀ p, p ≤ m + n →
      IsBit ((senderPass n m memory).memory.a p ^^^ pattern p) :=
    fun p inside => (sent_bits p inside).xor (pattern_bits p inside)
  have received : cellsPoly (fun p => (senderPass n m memory).memory.a p ^^^ pattern p)
      (m + n + 1) = cellsPoly (senderPass n m memory).memory.a (m + n + 1) +
        cellsPoly pattern (m + n + 1) :=
    cellsPoly_xor (fun p below => sent_bits p (Nat.le_of_lt_succ below))
      fun p below => pattern_bits p (Nat.le_of_lt_succ below)
  rw [Rejects, verdict_eq_error_iff, receiver_after_sender_iff g_bits leading long received_bits,
    received, dvd_add_right (dvd_transmitted g_bits leading a_bits long)]

/-- Two frames of the sender's with the same data are the same. -/
theorem eq_of_dvd_of_data (constant : memory.g n ≠ 0#32) (leading : memory.g 0 = 1#32)
    {left right : Cells} (left_bits : ∀ p, p ≤ m + n → IsBit (left p))
    (right_bits : ∀ p, p ≤ m + n → IsBit (right p))
    (left_dvd : cellsPoly memory.g (n + 1) ∣ cellsPoly left (m + n + 1))
    (right_dvd : cellsPoly memory.g (n + 1) ∣ cellsPoly right (m + n + 1))
    (data : ∀ p, p ≤ m → left p = right p) : ∀ p, p ≤ m + n → left p = right p := by
  by_contra differ
  push Not at differ
  rcases differ with ⟨place, inside, unequal⟩
  have difference : cellsPoly (fun p => left p ^^^ right p) (m + n + 1) =
      cellsPoly left (m + n + 1) + cellsPoly right (m + n + 1) :=
    cellsPoly_xor (fun p below => left_bits p (Nat.le_of_lt_succ below))
      fun p below => right_bits p (Nat.le_of_lt_succ below)
  have divides := dvd_add left_dvd right_dvd
  rw [← difference] at divides
  refine not_dvd_of_burst (m + 1) ?_ ?_ ?_ ?_ divides
  · rw [leading, coefficient_one]
  · rwa [ne_eq, coefficient_eq_zero_iff]
  · intro p below letter
    rw [ne_eq, coefficient_eq_zero_iff, BitVec.xor_eq_zero_iff] at letter
    have behind : ¬p ≤ m := fun early => letter (data p early)
    omega
  · refine ⟨place, by omega, ?_⟩
    rwa [ne_eq, coefficient_eq_zero_iff, BitVec.xor_eq_zero_iff]

end Frames

/-- The receiver accepts a frame exactly when it is the one that the sender transmits for the data
in front of it. -/
theorem accepts_iff_sent (n m : ℕ) (memory : Memory) (typed : Cells)
    (g_bits : ∀ p, p ≤ n → IsBit (memory.g p)) (typed_bits : ∀ p, p ≤ m + n → IsBit (typed p))
    (proper : properGenerator n m memory.g) :
    verdict n (receiverPass n (m + n) typed memory).memory.r = "\n No Error\n" ↔
      ∀ p, p ≤ m + n → typed p = (senderPass n m { memory with a := typed }).memory.a p := by
  have long := proper.long
  have leading := proper.leading g_bits
  have data_bits : ∀ p, p ≤ m → IsBit (typed p) := fun p inside => typed_bits p (by omega)
  have sent_bits : ∀ p, p ≤ m + n →
      IsBit ((senderPass n m { memory with a := typed }).memory.a p) :=
    fun p inside => @transmitted_bits n m { memory with a := typed } g_bits leading data_bits long
      p inside
  have sent_dvd := @dvd_transmitted n m { memory with a := typed } g_bits leading data_bits long
  rw [verdict_eq_noError_iff,
    receiver_remainder_iff g_bits leading typed_bits (by omega : n ≤ m + n)]
  constructor
  · intro divides
    apply eq_of_dvd_of_data proper.constant leading typed_bits sent_bits divides sent_dvd
    intro p inside
    rw [senderPass_a, if_neg (by omega)]
  · intro same
    rw [cellsPoly_congr fun p below => same p (Nat.le_of_lt_succ below)]
    exact sent_dvd

theorem accepts_iff_sent_linear :
    verdict 1 (receiverPass 1 (1 + 1) (fun _ => 1#32) linearMemory).memory.r = "\n No Error\n" ↔
      ∀ p, p ≤ 1 + 1 →
        1#32 = (senderPass 1 1 { linearMemory with a := fun _ => 1#32 }).memory.a p :=
  accepts_iff_sent 1 1 linearMemory (fun _ => 1#32) (fun _ _ => Or.inr rfl) (fun _ _ => Or.inr rfl)
    (by decide)

section Patterns

variable {n m : ℕ} {g : Cells}

/-- The generator at the beginning of a frame. -/
def generatorPattern (n : ℕ) (g : Cells) : Cells :=
  fun p => if p ≤ n then g p else 0#32

theorem cellsPoly_generatorPattern (n m : ℕ) (g : Cells) :
    cellsPoly (generatorPattern n g) (m + n + 1) = cellsPoly g (n + 1) * X ^ m := by
  have front : cellsPoly (generatorPattern n g) (n + 1) = cellsPoly g (n + 1) :=
    cellsPoly_congr fun p below => if_pos (Nat.le_of_lt_succ below)
  rw [show m + n + 1 = n + 1 + m by omega, ← front]
  apply wordPoly_pad
  intro p _
  rw [generatorPattern, if_neg (by omega), coefficient_eq_zero_iff]

theorem even_ones_iff (cells : Cells) (count : ℕ) :
    Even (ones cells count) ↔ (cellsPoly cells count).eval 1 = 0 :=
  (eval_one_eq_zero_iff _ _).symm

theorem isBit_pair (first second p : ℕ) : IsBit (pair first second p) := by
  rw [pair]
  split
  case isTrue => exact Or.inr rfl
  case isFalse => exact Or.inl rfl

theorem cellsPoly_pair {first second length : ℕ} (order : first < second)
    (inside : second < length) : cellsPoly (pair first second) length =
      (X ^ (second - first) + 1) * X ^ (length - 1 - second) := by
  apply wordPoly_pair order inside
  · simp [pair, coefficient]
  · intro index _ notFirst notSecond
    simp [pair, coefficient, notFirst, notSecond]

end Patterns

/-- All errors in an odd number of bits are detected exactly if the generator has an even number of
ones. -/
theorem odd_errors_rejected_iff (n m : ℕ) (memory : Memory)
    (g_bits : ∀ p, p ≤ n → IsBit (memory.g p)) (a_bits : ∀ p, p ≤ m → IsBit (memory.a p))
    (proper : properGenerator n m memory.g) :
    (∀ pattern, (∀ p, p ≤ m + n → IsBit (pattern p)) → Odd (ones pattern (m + n + 1)) →
      Rejects n m memory pattern) ↔ Even (ones memory.g (n + 1)) := by
  constructor
  · intro rejected
    by_contra odd
    have pattern_bits : ∀ p, p ≤ m + n → IsBit (generatorPattern n memory.g p) := by
      intro p _
      rw [generatorPattern]
      split
      case isTrue inside => exact g_bits p inside
      case isFalse => exact Or.inl rfl
    have product := cellsPoly_generatorPattern n m memory.g
    have passes := rejected (generatorPattern n memory.g) pattern_bits
    rw [rejects_iff g_bits a_bits proper pattern_bits, product] at passes
    apply passes _ (dvd_mul_right _ _)
    rw [← Nat.not_even_iff_odd, even_ones_iff, product, eval_mul, eval_pow, eval_X, one_pow,
      mul_one, ← even_ones_iff]
    exact odd
  · intro even pattern pattern_bits odd
    rw [rejects_iff g_bits a_bits proper pattern_bits]
    intro divides
    exact Nat.not_even_iff_odd.mpr odd (even_weight_of_dvd even divides)

theorem odd_errors_rejected_linear :
    (∀ pattern, (∀ p, p ≤ 1 + 1 → IsBit (pattern p)) → Odd (ones pattern (1 + 1 + 1)) →
      Rejects 1 1 linearMemory pattern) ↔ Even (ones linearMemory.g (1 + 1)) :=
  odd_errors_rejected_iff 1 1 linearMemory (fun _ _ => Or.inr rfl) (fun _ _ => Or.inr rfl)
    (by decide)

/-- All errors in two bits are detected exactly if the generator divides none of the polynomials
`X ^ gap + 1` for the gaps of the frame. -/
theorem double_errors_rejected_iff (n m : ℕ) (memory : Memory)
    (g_bits : ∀ p, p ≤ n → IsBit (memory.g p)) (a_bits : ∀ p, p ≤ m → IsBit (memory.a p))
    (proper : properGenerator n m memory.g) :
    (∀ first second, first < second → second ≤ m + n →
      Rejects n m memory (pair first second)) ↔
    ∀ gap, 1 ≤ gap → gap ≤ m + n →
      ¬cellsPoly memory.g (n + 1) ∣ (X ^ gap + 1 : (ZMod 2)[X]) := by
  have constant : coefficient (memory.g n) ≠ 0 := by
    rw [ne_eq, coefficient_eq_zero_iff]
    exact proper.constant
  have detected {first second : ℕ} (order : first < second) (inside : second ≤ m + n) :
      Rejects n m memory (pair first second) ↔
        ¬cellsPoly memory.g (n + 1) ∣ (X ^ (second - first) + 1 : (ZMod 2)[X]) := by
    rw [rejects_iff g_bits a_bits proper fun p _ => isBit_pair first second p,
      cellsPoly_pair order (Nat.lt_succ_of_le inside)]
    exact not_congr (dvd_mul_X_pow_iff constant _ _)
  constructor
  · intro rejected gap positive inside
    have first := (detected positive inside).mp (rejected 0 gap positive inside)
    rwa [Nat.sub_zero] at first
  · intro undivided first second order inside
    exact (detected order inside).mpr (undivided (second - first) (by omega) (by omega))

theorem double_errors_rejected_linear :
    (∀ first second, first < second → second ≤ 1 + 1 →
      Rejects 1 1 linearMemory (pair first second)) ↔
    ∀ gap, 1 ≤ gap → gap ≤ 1 + 1 →
      ¬cellsPoly linearMemory.g (1 + 1) ∣ (X ^ gap + 1 : (ZMod 2)[X]) :=
  double_errors_rejected_iff 1 1 linearMemory (fun _ _ => Or.inr rfl) (fun _ _ => Or.inr rfl)
    (by decide)

end NetLab.Crc
