import NetLab.Hamming.Correction
import NetLab.Hamming.Traced

/-!
# The arrays of the frame in the Hamming program

The frame is read into `db`, reversed through `temp` and laid out in `df`, which have thirty cells
each. A run stays inside them exactly when the code word of the frame and the position of the
error do (`main_frameInside_iff`).
-/

namespace NetLab.Hamming

open NetLab.Imperative
open NetLab.Imperative.Program (load store readOut)

def Buffer.size : Buffer → ℕ
  | .db => 30
  | .temp => 30
  | .rb => 8
  | .df => 30
  | .a1 => 4

/-- An access to `db`, `temp` or `df` is inside the array. -/
def FrameInside (access : Access Buffer) : Prop :=
  access.array ∈ [Buffer.db, .temp, .df] → access.index < access.array.size

section Accesses

variable {buffers : Arrays Buffer ℤ} {m l i1 i2 i3 i4 i5 i6 i7 : ℕ}

@[simp]
theorem frameInside_db {index : ℕ} :
    FrameInside { array := .db, index := index } ↔ index < 30 := by
  simp [FrameInside, Buffer.size]

@[simp]
theorem frameInside_temp {index : ℕ} :
    FrameInside { array := .temp, index := index } ↔ index < 30 := by
  simp [FrameInside, Buffer.size]

@[simp]
theorem frameInside_df {index : ℕ} :
    FrameInside { array := .df, index := index } ↔ index < 30 := by
  simp [FrameInside, Buffer.size]

@[simp]
theorem frameInside_a1 {index : ℕ} : FrameInside { array := .a1, index := index } := by
  simp [FrameInside]

@[simp]
theorem frameInside_rb {index : ℕ} : FrameInside { array := .rb, index := index } := by
  simp [FrameInside]

theorem log2_half (large : 2 ≤ i7) : i7.log2 = (i7 / 2).log2 + 1 := by
  rw [Nat.log2_def, if_pos large]

theorem log2_one : Nat.log2 1 = 0 := by
  decide

theorem onePosition_eq (positive : 0 < i7) (i4 : ℤ) :
    onePosition i7 i4 = i4 + i7.log2 + 1 := by
  fun_induction onePosition i7 i4 with
  | case1 i4 =>
      rw [log2_one]
      omega
  | case2 i7 i4 positive notOne ih =>
      have half := log2_half (by omega : 2 ≤ i7)
      rw [ih (by omega), half]
      omega
  | case3 i7 i4 notPositive => omega

/-- The digits of a number go into the cells up to the one of its leading digit. -/
theorem makes_binaryConversion {admitted : Access Buffer → Prop} (positive : 0 < i7) :
    (Traced.binaryConversion i7 i6).Makes admitted buffers ↔
      ∀ digit ≤ i7.log2, admitted { array := .a1, index := i6 + digit } := by
  induction i7 using Nat.strong_induction_on generalizing i6 buffers with
  | _ i7 ih =>
      rw [Traced.binaryConversion, if_pos positive]
      by_cases one : i7 = 1
      · rw [if_pos one, Program.makes_store, one, log2_one]
        simp
      · have notZero : i7 ≠ 0 := by omega
        have half := log2_half (by omega : 2 ≤ i7)
        rw [if_neg one, if_neg notZero, Program.makes_bind, Program.makes_store,
          ih (i7 / 2) (by omega) (by omega)]
        constructor
        · rintro ⟨first, later⟩ digit le
          rcases digit with _ | digit
          · exact first
          · have next := later digit (by omega)
            rwa [Nat.add_assoc, Nat.add_comm 1] at next
        · intro all
          refine ⟨all 0 (Nat.zero_le _), ?_⟩
          intro digit le
          have next := all (digit + 1) (by omega)
          rwa [Nat.add_comm digit, ← Nat.add_assoc] at next

theorem readFrame_frameInside (frame : Cells) (short : m ≤ 30) :
    (Traced.readFrame m frame).Makes FrameInside buffers := by
  apply Program.makes_forDown_of_forall
  intro i _ buffers _ below
  rw [Program.makes_store, frameInside_db]
  omega

theorem reverseFrame_frameInside (short : m ≤ 30) :
    (Traced.reverseFrame m).Makes FrameInside buffers := by
  rw [Traced.reverseFrame, Program.makes_bind]
  constructor
  · refine Program.makes_forDown_of (fun bound current => current.1 + bound = m)
      (Nat.zero_add m) ?_
    intro i current _ below count
    simp only [Program.makes_bind, Program.makes_load, Program.makes_store, Program.makes_pure,
      Program.effect_bind, Program.effect_load, Program.effect_store, Program.effect_pure,
      frameInside_db, frameInside_temp, and_true]
    omega
  · apply Program.makes_forUp_of_forall
    intro i _ buffers _ below
    simp only [Program.makes_bind, Program.makes_load, Program.makes_store, frameInside_db,
      frameInside_temp]
    omega

theorem le_layoutLoop_i (m : ℕ) (db : Cells) (state : Layout) :
    state.i ≤ (layoutLoop m db state).i := by
  fun_induction layoutLoop m db state with
  | case1 state more atPower ih => exact Nat.le_of_succ_le ih
  | case2 state more notAtPower ih => exact Nat.le_of_succ_le ih
  | case3 state done => exact le_rfl

/-- The loop stores below the counter that it ends with. -/
theorem layoutLoop_frameInside (memory : Memory) (state : Layout) (short : m ≤ 30)
    (room : (layoutLoop m memory.db state).i ≤ 30) :
    (Traced.layoutLoop m (state.left memory).1).Makes FrameInside (state.left memory).2 := by
  fun_induction layoutLoop m memory.db state with
  | case1 state more atPower ih =>
      have less : (state.left memory).1.j < m := more
      have same : (state.left memory).1.i = (state.left memory).1.k := atPower
      have below := (le_layoutLoop_i m memory.db _).trans room
      rw [Traced.layoutLoop, if_pos less, if_pos same, Program.makes_bind, Program.makes_store,
        Program.effect_store, frameInside_df, Layout.left, update_buffers]
      exact ⟨below, ih room⟩
  | case2 state more notAtPower ih =>
      have less : (state.left memory).1.j < m := more
      have other : (state.left memory).1.i ≠ (state.left memory).1.k := notAtPower
      have below := (le_layoutLoop_i m memory.db _).trans room
      rw [Traced.layoutLoop, if_pos less, if_neg other, Program.makes_bind, Program.makes_load,
        Program.effect_load, Program.makes_bind, Program.makes_store, Program.effect_store,
        frameInside_db, frameInside_df, Layout.left, update_buffers]
      exact ⟨more.trans_le short, below, ih room⟩
  | case3 state done =>
      have notLess : ¬(state.left memory).1.j < m := done
      rw [Traced.layoutLoop, if_neg notLess]
      exact Program.makes_pure _

theorem showFrame_frameInside_iff :
    (Traced.showFrame l).Makes FrameInside buffers ↔ ∀ i, 1 ≤ i → i < l + 1 → i < 30 := by
  apply Program.makes_forDown_iff
  intro i _ buffers _ _
  rw [Program.makes_bind, Program.makes_load, frameInside_df]
  exact and_iff_left (Program.makes_pure _)

theorem readOut_frameInside (short : l < 30) : (readOut .df 1 l).Makes FrameInside buffers :=
  Program.makes_readOut.mpr fun _ _ below => frameInside_df.mpr (by omega)

theorem countOnes_frameInside (short : l < 30) :
    (Traced.countOnes l i1).Makes FrameInside buffers := by
  apply Program.makes_forUp_of_forall
  intro i2 i3 buffers positive below
  have reset : Traced.resetDigits.Makes FrameInside buffers := by
    apply Program.makes_forUp_of_forall
    intro i6 _ buffers _ _
    exact Program.makes_store.mpr frameInside_a1
  have digits (buffers : Arrays Buffer ℤ) :
      (Traced.binaryConversion i2 0).Makes FrameInside buffers :=
    (makes_binaryConversion positive).mpr fun _ _ => frameInside_a1
  simp only [Traced.countPosition, Program.makes_bind, reset, digits, Program.makes_load,
    frameInside_a1, true_and]
  split
  case isTrue =>
    rw [Program.makes_bind, Program.makes_load, frameInside_df]
    exact ⟨by omega, Program.makes_pure _⟩
  case isFalse => exact Program.makes_pure _

theorem settle_frameInside (short : l < 30) (upper : i1 ≤ l) :
    (Traced.settle l i1 i5).Makes FrameInside buffers := by
  simp only [Traced.settle, Program.makes_bind, countOnes_frameInside short, Program.makes_store,
    frameInside_df, frameInside_rb, Program.makes_pure, true_and, and_true]
  omega

theorem parityPass_frameInside (short : l < 30) :
    (Traced.parityPass l).Makes FrameInside buffers := by
  apply Program.makes_forUp_of_forall
  intro i1 i5 buffers _ upper
  rw [Traced.parityStep, Program.makes_bind, Program.makes_load, frameInside_df]
  refine ⟨by omega, ?_⟩
  split
  case isTrue =>
    simp only [Program.makes_bind, settle_frameInside short (Nat.le_of_lt_succ upper),
      Program.makes_load, frameInside_rb, readOut_frameInside short, Program.makes_pure, and_true]
  case isFalse => exact Program.makes_pure _

theorem recalculate_frameInside (short : l < 30) :
    (Traced.recalculate l).Makes FrameInside buffers := by
  apply Program.makes_forUp_of_forall
  intro i1 current buffers _ upper
  rw [Traced.recalculateStep]
  split
  case isTrue =>
    rw [Program.makes_bind]
    exact ⟨settle_frameInside short (Nat.le_of_lt_succ upper), Program.makes_pure _⟩
  case isFalse => exact Program.makes_pure _

theorem changeBit_frameInside_iff {eb : ℕ} :
    (Traced.changeBit eb).Makes FrameInside buffers ↔ eb < 30 := by
  simp only [Traced.changeBit, Program.makes_bind, Program.makes_load, Program.makes_store,
    frameInside_df]
  split <;> simp

theorem locate_frameInside {nrb : ℕ} : (Traced.locate nrb).Makes FrameInside buffers := by
  have shown (buffers : Arrays Buffer ℤ) : (readOut .rb 0 nrb).Makes FrameInside buffers :=
    Program.makes_readOut.mpr fun _ _ _ => frameInside_rb
  have located (buffers : Arrays Buffer ℤ) :
      (Traced.errorPosition nrb).Makes FrameInside buffers := by
    apply Program.makes_forUp_of_forall
    intro i current buffers _ _
    simp only [Program.makes_bind, Program.makes_load, frameInside_rb, Program.makes_pure,
      and_self]
  simp only [Traced.locate, Program.makes_bind, shown, located, Program.makes_pure, and_self]

end Accesses

/-! ## The run of `main` -/

theorem prepare_l (input : Input) (buffers : Arrays Buffer ℤ) :
    ((Traced.prepare input).effect buffers).1.l = codeLength input.m := by
  rcases exists_buffers buffers with ⟨memory, rfl⟩
  rw [effect_prepare]
  exact laidOut_l memory input

theorem prepare_frameInside_iff (input : Input) (buffers : Arrays Buffer ℤ) :
    (Traced.prepare input).Makes FrameInside buffers ↔ codeLength input.m < 30 := by
  rcases exists_buffers buffers with ⟨memory, rfl⟩
  have laid := laidOut_laid memory input
  have length := laidOut_l memory input
  simp only [Traced.prepare, Program.makes_bind, effect_readFrame, Program.effect_readOut,
    effect_reverseFrame, effect_layout, Program.makes_pure, and_true, showFrame_frameInside_iff]
  constructor
  · rintro ⟨_, _, _, _, frame⟩
    change ∀ i, 1 ≤ i → i < (laidOut memory input).l + 1 → i < 30 at frame
    by_contra long
    exact absurd (frame 30 (by omega) (by omega)) (lt_irrefl 30)
  · intro short
    have fewer : input.m ≤ 30 := by
      rw [codeLength] at short
      omega
    refine ⟨readFrame_frameInside _ fewer, ?_, reverseFrame_frameInside fewer, ?_, ?_⟩
    · exact Program.makes_readOut.mpr fun _ _ below => frameInside_db.mpr (by omega)
    · have room : (laidOut memory input).i ≤ 30 := by
        rw [laid.next, length]
        omega
      exact layoutLoop_frameInside (prepared memory input)
        { i := 1, j := 0, k := 1, nrb := 0, l := 0, df := memory.df } fewer room
    · intro i _ below
      change i < (laidOut memory input).l + 1 at below
      omega

/-- A run stays inside the arrays of the frame exactly when the code word and the error do. -/
theorem main_frameInside_iff (input : Input) (buffers : Arrays Buffer ℤ) :
    (Traced.main input).Makes FrameInside buffers ↔ codeLength input.m < 30 ∧ input.eb < 30 := by
  simp only [Traced.main, Traced.transmit, Program.makes_bind, prepare_frameInside_iff, prepare_l,
    locate_frameInside, changeBit_frameInside_iff, showFrame_frameInside_iff, Program.makes_pure,
    and_true]
  constructor
  · rintro ⟨short, _, ⟨inside, _⟩, _⟩
    exact ⟨short, inside⟩
  · rintro ⟨short, inside⟩
    exact ⟨short, parityPass_frameInside short, ⟨inside, fun i _ below => by omega⟩,
      recalculate_frameInside short⟩

end NetLab.Hamming
