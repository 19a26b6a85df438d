import NetLab.Hamming.CodeWords
import NetLab.Hamming.FrameArrays

/-!
# The scratch arrays of the Hamming program

The binary digits of a position go into `a1`, and the redundancy bits into `rb`. Neither size is
related to the one of the frame, and the parity pass takes each `-1` for a redundancy bit that is
still to be calculated, also one that the user has typed.
-/

namespace NetLab.Hamming

open NetLab.Imperative
open NetLab.Imperative.Program (load store readOut)

/-- An access to `a1` or `rb` is inside the array. -/
def ScratchInside (access : Access Buffer) : Prop :=
  access.array ∈ [Buffer.a1, .rb] → access.index < access.array.size

/-- The parity pass and the recalculation of a run of `main` stay inside `a1` and `rb`. -/
def PassesInside (input : Input) (buffers : Arrays Buffer ℤ) : Prop :=
  let laid := (Traced.prepare input).effect buffers
  let coded := (Traced.parityPass laid.1.l).effect laid.2
  let received := (Traced.transmit input.eb laid.1.l).effect coded.2
  (Traced.parityPass laid.1.l).Makes ScratchInside laid.2 ∧
    (Traced.recalculate laid.1.l).Makes ScratchInside received.2

/-- How many of the positions `1, ..., l` are marked. -/
def marks (df : Cells) (l : ℕ) : ℕ :=
  (List.range' 1 l).countP fun p => df p = -1

section Accesses

variable {buffers : Arrays Buffer ℤ} {l i1 i2 i3 i4 i5 i6 i7 : ℕ}

@[simp]
theorem scratchInside_a1 {index : ℕ} :
    ScratchInside { array := .a1, index := index } ↔ index < 4 := by
  simp [ScratchInside, Buffer.size]

@[simp]
theorem scratchInside_rb {index : ℕ} :
    ScratchInside { array := .rb, index := index } ↔ index < 8 := by
  simp [ScratchInside, Buffer.size]

@[simp]
theorem scratchInside_df {index : ℕ} : ScratchInside { array := .df, index := index } := by
  simp [ScratchInside]

theorem makes_countPosition (positive : 0 < i2) :
    (Traced.countPosition i4 i2 i3).Makes ScratchInside buffers ↔ i2.log2 < 4 ∧ i4 < 4 := by
  have reset : Traced.resetDigits.Makes ScratchInside buffers := by
    apply Program.makes_forUp_of_forall
    intro i6 _ buffers _ below
    exact Program.makes_store.mpr (scratchInside_a1.mpr below)
  have digits : (∀ digit ≤ i2.log2, ScratchInside { array := .a1, index := 0 + digit }) ↔
      i2.log2 < 4 := by
    simp only [scratchInside_a1, Nat.zero_add]
    exact ⟨fun all => all i2.log2 le_rfl, fun short digit le => le.trans_lt short⟩
  have scan (buffers : Arrays Buffer ℤ) (digit : ℤ) : (if digit = 1 then do
      let bit ← load .df i2
      return if bit = 1 then i3 + 1 else i3
    else return i3 : Program Buffer ℤ ℕ).Makes ScratchInside buffers := by
    split
    case isTrue => simp
    case isFalse => exact Program.makes_pure _
  rw [Traced.countPosition, Program.makes_bind, Program.makes_bind, Program.makes_bind,
    makes_binaryConversion positive, digits, Program.makes_load, scratchInside_a1]
  simp only [reset, scan, true_and, and_true]

theorem makes_countOnes (lower : 1 ≤ i1) (upper : i1 ≤ l) :
    (Traced.countOnes l i1).Makes ScratchInside buffers ↔ l < 16 := by
  have index : (onePosition i1 (-1)).toNat = i1.log2 := by
    rw [onePosition_eq lower]
    omega
  have positions : (Traced.countOnes l i1).Makes ScratchInside buffers ↔
      ∀ i2, 1 ≤ i2 → i2 < l + 1 → i2.log2 < 4 ∧ i1.log2 < 4 := by
    rw [Traced.countOnes, index]
    apply Program.makes_forUp_iff
    intro i2 i3 buffers positive _
    exact makes_countPosition positive
  have short {number : ℕ} (positive : 1 ≤ number) : number.log2 < 4 ↔ number < 16 :=
    Nat.log2_lt (by omega)
  rw [positions]
  constructor
  · intro all
    exact (short (by omega)).mp (all l (by omega) (Nat.lt_succ_self l)).1
  · intro fits i2 positive below
    exact ⟨(short positive).mpr (by omega), (short lower).mpr (by omega)⟩

theorem makes_settle (lower : 1 ≤ i1) (upper : i1 ≤ l) :
    (Traced.settle l i1 i5).Makes ScratchInside buffers ↔ l < 16 ∧ i5 < 8 := by
  simp only [Traced.settle, Program.makes_bind, makes_countOnes lower upper, Program.makes_store,
    Program.makes_pure, and_true, scratchInside_df, scratchInside_rb, true_and]

/-- Settling a position leaves the other ones as they are. -/
theorem effect_settle_df (l i1 i5 : ℕ) (buffers : Arrays Buffer ℤ) :
    ((Traced.settle l i1 i5).effect buffers).1 = i5 + 1 ∧
      ∀ p ≠ i1, ((Traced.settle l i1 i5).effect buffers).2 .df p = buffers .df p := by
  rcases exists_buffers buffers with ⟨memory, rfl⟩
  have settled := effect_settle l i1 memory
    { df := memory.df, rb := memory.rb, i5 := i5, a1 := memory.a1 }
  change (Traced.settle l i1 i5).effect memory.buffers = _ at settled
  rw [settled]
  refine ⟨rfl, ?_⟩
  intro p other
  exact Function.update_of_ne other _ _

theorem makes_parityStep (lower : 1 ≤ i1) (upper : i1 ≤ l) :
    (Traced.parityStep l i1 i5).Makes ScratchInside buffers ↔
      (buffers .df i1 = -1 → l < 16 ∧ i5 < 8) := by
  rw [Traced.parityStep, Program.makes_bind, Program.makes_load, Program.effect_load]
  simp only [scratchInside_df, true_and]
  split
  case isTrue mark =>
    have printed (buffers : Arrays Buffer ℤ) : (readOut .df 1 l).Makes ScratchInside buffers :=
      Program.makes_readOut.mpr fun _ _ _ => scratchInside_df
    simp only [Program.makes_bind, makes_settle lower upper, Program.makes_load, printed,
      Program.makes_pure, and_true, scratchInside_rb, (effect_settle_df l i1 i5 buffers).1]
    constructor
    · intro both _
      exact both.1
    · intro room
      exact ⟨room mark, (room mark).2⟩
  case isFalse unmarked =>
    exact iff_of_true (Program.makes_pure _) fun mark => absurd mark unmarked

theorem effect_parityStep (l i1 i5 : ℕ) (buffers : Arrays Buffer ℤ) :
    ((Traced.parityStep l i1 i5).effect buffers).1 =
        (if buffers .df i1 = -1 then i5 + 1 else i5) ∧
      ∀ p ≠ i1, ((Traced.parityStep l i1 i5).effect buffers).2 .df p = buffers .df p := by
  have settled := effect_settle_df l i1 i5 buffers
  simp only [Traced.parityStep, Program.effect_bind, Program.effect_load, Program.effect_ite,
    Program.effect_readOut, Program.effect_pure]
  split
  case isTrue => exact settled
  case isFalse => exact ⟨rfl, fun _ _ => rfl⟩

theorem marks_succ (df : Cells) (l : ℕ) :
    marks df (l + 1) = marks df l + if df (l + 1) = -1 then 1 else 0 := by
  rw [marks, List.range'_1_concat, List.countP_append, List.countP_singleton, Nat.add_comm 1 l,
    marks]
  simp

/-- There are never more marks than a bound if there are fewer in front of each of them. -/
theorem marks_le_iff (df : Cells) (l bound : ℕ) :
    (∀ i1, 1 ≤ i1 → i1 < l + 1 → df i1 = -1 → marks df (i1 - 1) < bound) ↔ marks df l ≤ bound := by
  induction l with
  | zero => exact iff_of_true (fun i1 lower upper => absurd upper (by omega)) (Nat.zero_le _)
  | succ l ih =>
      rw [marks_succ]
      constructor
      · intro all
        have earlier := ih.mp fun i1 lower upper => all i1 lower (by omega)
        split
        case isTrue mark =>
          have here := all (l + 1) (by omega) (by omega) mark
          rw [Nat.add_sub_cancel] at here
          omega
        case isFalse => exact earlier
      · intro few i1 lower upper mark
        rcases Nat.lt_succ_iff_lt_or_eq.mp upper with below | rfl
        · exact ih.mpr (by omega) i1 lower below mark
        · rw [if_pos mark] at few
          rw [Nat.add_sub_cancel]
          omega

/-- What the parity pass has counted, and left as it was, before position `i1`. -/
theorem parityPass_reached (l : ℕ) {i1 : ℕ} (lower : 1 ≤ i1) (buffers : Arrays Buffer ℤ) :
    ((Program.forUp 1 i1 (Traced.parityStep l) 0).effect buffers).1 =
        marks (buffers .df) (i1 - 1) ∧
      ∀ p, i1 ≤ p →
        ((Program.forUp 1 i1 (Traced.parityStep l) 0).effect buffers).2 .df p = buffers .df p := by
  rw [Program.effect_forUp]
  refine forUp_induction (fun bound (current : ℕ × Arrays Buffer ℤ) =>
    current.1 = marks (buffers .df) (bound - 1) ∧
      ∀ p, bound ≤ p → current.2 .df p = buffers .df p) lower ⟨rfl, fun _ _ => rfl⟩ ?_
  rintro i1 ⟨i5, current⟩ positive _ ⟨count, same⟩
  rcases effect_parityStep l i1 i5 current with ⟨counted, kept⟩
  obtain ⟨position, rfl⟩ : ∃ position, i1 = position + 1 := ⟨i1 - 1, by omega⟩
  simp only at count same
  constructor
  · rw [counted, same _ le_rfl, count, Nat.add_sub_cancel, Nat.add_sub_cancel, marks_succ]
    split <;> rfl
  · intro p above
    rw [kept p (by omega), same p (by omega)]

theorem makes_parityPass (first : 1 ≤ l → buffers .df 1 = -1) :
    (Traced.parityPass l).Makes ScratchInside buffers ↔
      (1 ≤ l → l < 16) ∧ marks (buffers .df) l ≤ 8 := by
  have passes : (Traced.parityPass l).Makes ScratchInside buffers ↔
      ∀ i1, 1 ≤ i1 → i1 < l + 1 → buffers .df i1 = -1 →
        l < 16 ∧ marks (buffers .df) (i1 - 1) < 8 := by
    rw [Traced.parityPass, Program.makes_forUp]
    apply forall₃_congr
    intro i1 lower upper
    rcases parityPass_reached l lower buffers with ⟨count, same⟩
    rw [makes_parityStep lower (by omega), count, same i1 le_rfl]
  rw [passes, ← marks_le_iff]
  constructor
  · intro all
    exact ⟨fun positive => (all 1 le_rfl (by omega) (first positive)).1,
      fun i1 lower upper mark => (all i1 lower upper mark).2⟩
  · rintro ⟨short, few⟩ i1 lower upper mark
    exact ⟨short (by omega), few i1 lower upper mark⟩

theorem makes_recalculate (short : l < 16) :
    (Traced.recalculate l).Makes ScratchInside buffers := by
  refine Program.makes_forUp_of (fun _ current => current.1.2 = 2 ^ current.1.1) rfl ?_
  rintro i1 ⟨⟨i5, k⟩, current⟩ lower upper power
  simp only at power
  rw [Traced.recalculateStep]
  split
  case isTrue atPower =>
    have few : i5 < 4 := by
      apply (Nat.pow_lt_pow_iff_right (by decide : 1 < 2)).mp
      simp only at atPower
      omega
    simp only [Program.makes_bind, makes_settle lower (Nat.le_of_lt_succ upper),
      Program.makes_pure, and_true, Program.effect_bind, Program.effect_pure,
      (effect_settle_df l i1 i5 current).1, power, Nat.pow_succ]
    omega
  case isFalse => exact ⟨Program.makes_pure _, power⟩

end Accesses

/-! ## The condition on the frame -/

theorem lt_two_pow_of_redundancyCount_le {m e : ℕ} (few : redundancyCount m ≤ e) :
    m + redundancyCount m < 2 ^ e :=
  (redundancyCount_spec m).trans_le (Nat.pow_le_pow_right (by decide) few)

/-- Four redundancy bits are enough for eleven bits and no more. -/
theorem codeLength_lt_iff (m : ℕ) : codeLength m < 16 ↔ m ≤ 11 := by
  constructor
  · intro short
    by_contra long
    rw [codeLength] at short
    have below := lt_two_pow_of_redundancyCount_le (by omega : redundancyCount m ≤ 3)
    omega
  · intro short
    have few : redundancyCount m ≤ 4 := redundancyCount_le (by omega)
    rw [codeLength]
    omega

theorem redundancyCount_eq {m : ℕ} (long : 5 ≤ m) (short : m ≤ 11) : redundancyCount m = 4 := by
  apply le_antisymm
  · exact redundancyCount_le (by omega)
  · by_contra few
    have below := lt_two_pow_of_redundancyCount_le (by omega : redundancyCount m ≤ 3)
    have less := lt_two_pow_of_redundancyCount_le (by omega : redundancyCount m ≤ 2)
    omega

/-- The marks of the laid out frame: the redundancy bits, and what was typed as one. -/
theorem marks_laidOut (memory : Memory) (input : Input) :
    marks (laidOut memory input).df (laidOut memory input).l =
      redundancyCount input.m + (List.range input.m).countP fun i => input.frame i = -1 := by
  have laid := laidOut_laid memory input
  have ⟨below, above⟩ := laidOut_between memory input
  have length : (laidOut memory input).l - (laidOut memory input).nrb = input.m := by
    rw [laidOut_l, laidOut_nrb, codeLength, Nat.add_sub_cancel]
  have indices := map_frameIndex below above
  rw [length] at indices
  let powers := (List.range' 1 (laidOut memory input).l).filter fun p => decide p.isPowerOfTwo
  have others : (List.range' 1 (laidOut memory input).l).filter
      (fun p => !decide p.isPowerOfTwo) = dataPositions (laidOut memory input).l := by
    simp only [dataPositions, decide_not]
  have data : (dataPositions (laidOut memory input).l).countP
      (fun p => (laidOut memory input).df p = -1) =
        (List.range input.m).countP fun i => input.frame i = -1 := by
    rw [← indices, List.countP_map]
    apply List.countP_congr
    intro p listed
    rcases mem_dataPositions.mp listed with ⟨⟨lower, upper⟩, notPower⟩
    simp only [Function.comp_apply, (laidOut_data lower upper notPower).2]
  have count : powers.length = redundancyCount input.m := by
    have whole : (List.range' 1 (laidOut memory input).l).length =
        powers.length + (dataPositions (laidOut memory input).l).length := by
      rw [← others]
      exact List.length_eq_length_filter_add _
    have dataLength := congrArg List.length indices
    have total := laidOut_l memory input
    rw [List.length_map, List.length_range] at dataLength
    rw [List.length_range', dataLength, total, codeLength] at whole
    omega
  have all : powers.countP (fun p => (laidOut memory input).df p = -1) = powers.length := by
    rw [List.countP_eq_length]
    intro p listed
    rcases List.mem_filter.mp listed with ⟨inside, power⟩
    rw [List.mem_range'_1] at inside
    exact decide_eq_true (laidOut_redundancy (by omega) (of_decide_eq_true power))
  rw [marks, List.countP_eq_countP_filter_add _ _ fun p => decide p.isPowerOfTwo, others, data,
    all, count]

/-- The passes have room for the digits of the positions and for all that is marked. -/
theorem passesInside_iff_marks (input : Input) (buffers : Arrays Buffer ℤ) :
    PassesInside input buffers ↔ codeLength input.m < 16 ∧
      redundancyCount input.m + (List.range input.m).countP (fun i => input.frame i = -1) ≤ 8 := by
  rcases exists_buffers buffers with ⟨memory, rfl⟩
  have first : 1 ≤ (laidOut memory input).l → (laidOut memory input).df 1 = -1 :=
    fun positive => laidOut_redundancy positive ⟨0, rfl⟩
  have parity : (Traced.parityPass (laidOut memory input).l).Makes ScratchInside
      ((laidOut memory input).left (prepared memory input)).2 ↔
        (1 ≤ (laidOut memory input).l → (laidOut memory input).l < 16) ∧
          marks (laidOut memory input).df (laidOut memory input).l ≤ 8 :=
    makes_parityPass first
  have prepare : (Traced.prepare input).effect memory.buffers =
      (laidOut memory input).left (prepared memory input) := effect_prepare input memory
  simp only [PassesInside, prepare]
  change (Traced.parityPass (laidOut memory input).l).Makes _ _ ∧
    (Traced.recalculate (laidOut memory input).l).Makes _ _ ↔ _
  rw [parity, marks_laidOut, laidOut_l]
  constructor
  · rintro ⟨⟨short, few⟩, _⟩
    exact ⟨by omega, few⟩
  · rintro ⟨short, few⟩
    exact ⟨⟨fun _ => short, few⟩, makes_recalculate short⟩

/-- The passes stay inside the scratch arrays exactly for frames of at most eleven bits with at
most four of them typed as `-1`. -/
theorem passesInside_iff (input : Input) (buffers : Arrays Buffer ℤ) :
    PassesInside input buffers ↔
      input.m ≤ 11 ∧ (List.range input.m).countP (fun i => input.frame i = -1) ≤ 4 := by
  have typed : (List.range input.m).countP (fun i => decide (input.frame i = -1)) ≤ input.m := by
    have bound := @List.countP_le_length ℕ (fun i => decide (input.frame i = -1))
      (List.range input.m)
    rwa [List.length_range] at bound
  rw [passesInside_iff_marks, codeLength_lt_iff]
  apply and_congr_right
  intro eleven
  rcases Nat.lt_or_ge input.m 5 with short | long
  · have needed : redundancyCount input.m ≤ 4 := redundancyCount_le (by omega)
    omega
  · rw [redundancyCount_eq long eleven]
    omega

/-- A frame of twelve zeros. -/
def twelveZeros : Input :=
  { m := 12, frame := fun _ => 0, r := 5, eb := 3 }

/-- The frame of twelve bits fits everywhere, but its code word has a position with five digits. -/
theorem twelve_bits_overrun :
    (Traced.main twelveZeros).Makes FrameInside clearMemory.buffers ∧
      ¬PassesInside twelveZeros clearMemory.buffers := by
  constructor
  · rw [main_frameInside_iff]
    have few : redundancyCount 12 ≤ 5 := redundancyCount_le (by decide)
    refine ⟨?_, by decide⟩
    change 12 + redundancyCount 12 < 30
    omega
  · rw [passesInside_iff_marks, codeLength_lt_iff]
    rintro ⟨eleven, _⟩
    exact absurd eleven (by decide)

end NetLab.Hamming
