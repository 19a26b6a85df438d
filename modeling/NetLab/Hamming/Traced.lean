import NetLab.Hamming.Basic
import NetLab.Imperative.Arrays

/-!
# The accesses of the Hamming program

`errcorrection/hamming.cpp` once more, with each access to its arrays. What it leaves in the
arrays is what `main` computes (`effect_main`).
-/

namespace NetLab.Hamming

open NetLab.Imperative
open NetLab.Imperative.Program (load store readOut)

/-- The arrays that `main` declares and uses. -/
inductive Buffer where
  | db
  | temp
  | rb
  | df
  | a1
deriving DecidableEq

def Memory.buffers (memory : Memory) : Arrays Buffer ℤ
  | .db => memory.db
  | .temp => memory.temp
  | .rb => memory.rb
  | .df => memory.df
  | .a1 => memory.a1

def Memory.set (memory : Memory) (name : Buffer) (cells : Cells) : Memory :=
  match name with
  | .db => { memory with db := cells }
  | .temp => { memory with temp := cells }
  | .rb => { memory with rb := cells }
  | .df => { memory with df := cells }
  | .a1 => { memory with a1 := cells }

namespace Traced

def readFrame (m : ℕ) (frame : Cells) : Program Buffer ℤ Unit :=
  Program.forDown 0 m (fun i _ => store .db i (frame (m - 1 - i))) ()

def reverseFrame (m : ℕ) : Program Buffer ℤ Unit := do
  let _ ← Program.forDown 0 m
    (fun i j => do
      let bit ← load .db i
      store .temp j bit
      return j + 1) 0
  Program.forUp 0 m (fun i _ => load .temp i >>= store .db i) ()

/-- The variables of the layout loop. -/
structure Counters where
  i : ℕ
  j : ℕ
  k : ℕ
  nrb : ℕ
  l : ℕ

def layoutLoop (m : ℕ) (state : Counters) : Program Buffer ℤ Counters :=
  if state.j < m then
    if state.i = state.k then do
      store .df state.i (-1)
      layoutLoop m
        { state with
          k := state.k * 2
          nrb := state.nrb + 1
          l := state.l + 1
          i := state.i + 1 }
    else do
      let bit ← load .db state.j
      store .df state.i bit
      layoutLoop m
        { state with
          j := state.j + 1
          l := state.l + 1
          i := state.i + 1 }
  else return state
termination_by 3 * (m - state.j) + if state.i = state.k then if state.k = 1 then 2 else 1 else 0
decreasing_by
  · split_ifs <;> omega
  · split_ifs <;> omega

def layout (m : ℕ) : Program Buffer ℤ Counters :=
  layoutLoop m { i := 1, j := 0, k := 1, nrb := 0, l := 0 }

/-- `for(i=l;i>0;i--) cout<<df[i]`. -/
def showFrame (l : ℕ) : Program Buffer ℤ (List ℤ) :=
  Program.forDown 1 (l + 1)
    (fun i shown => do
      let bit ← load .df i
      return shown ++ [bit]) []

/-- What `main` does before the parity pass. -/
def prepare (input : Input) : Program Buffer ℤ Counters := do
  readFrame input.m input.frame
  let _ ← readOut .db 0 input.m
  reverseFrame input.m
  let laid ← layout input.m
  let _ ← showFrame laid.l
  return laid

def binaryConversion (i7 i6 : ℕ) : Program Buffer ℤ Unit :=
  if i7 > 0 then
    if i7 = 1 then store .a1 i6 1
    else if i7 = 0 then do
      store .a1 i6 0
      binaryConversion i7 (i6 + 1)
    else do
      store .a1 i6 (i7 % 2 : ℕ)
      binaryConversion (i7 / 2) (i6 + 1)
  else return
termination_by i7
decreasing_by
  · omega
  · omega

/-- The width of `a1` in the loops that reset it. -/
def width : ℕ :=
  4

def resetDigits : Program Buffer ℤ Unit :=
  Program.forUp 0 width (fun i6 _ => store .a1 i6 (-1)) ()

/-- One position of the scan for the redundancy bit whose digit is `i4`. -/
def countPosition (i4 i2 i3 : ℕ) : Program Buffer ℤ ℕ := do
  resetDigits
  binaryConversion i2 0
  let digit ← load .a1 i4
  if digit = 1 then
    let bit ← load .df i2
    return if bit = 1 then i3 + 1 else i3
  else return i3

def countOnes (l i1 : ℕ) : Program Buffer ℤ ℕ :=
  Program.forUp 1 (l + 1) (countPosition (onePosition i1 (-1)).toNat) 0

/-- Calculate the redundancy bit at `i1`, and count `i5` up. -/
def settle (l i1 i5 : ℕ) : Program Buffer ℤ ℕ := do
  let i3 ← countOnes l i1
  let bit : ℤ := if i3 % 2 = 0 then 0 else 1
  store .df i1 bit
  store .rb i5 bit
  return i5 + 1

/-- One position in the parity pass, which prints the redundancy bit and the frame so far. -/
def parityStep (l i1 i5 : ℕ) : Program Buffer ℤ ℕ := do
  let mark ← load .df i1
  if mark = -1 then
    let i5 ← settle l i1 i5
    let _ ← load .rb (i5 - 1)
    let _ ← readOut .df 1 l
    return i5
  else return i5

def parityPass (l : ℕ) : Program Buffer ℤ ℕ :=
  Program.forUp 1 (l + 1) (parityStep l) 0

/-- The bit at `eb` is printed before and after the change. -/
def changeBit (eb : ℕ) : Program Buffer ℤ Unit := do
  let _ ← load .df eb
  store .df eb 1
  let bit ← load .df eb
  if bit ≠ 0 then store .df eb 0 else store .df eb 1
  let _ ← load .df eb
  return

/-- One position in the recalculation, with `i5` and `k`. -/
def recalculateStep (l i1 : ℕ) (current : ℕ × ℕ) : Program Buffer ℤ (ℕ × ℕ) :=
  if i1 = current.2 then do
    let i5 ← settle l i1 current.1
    return (i5, current.2 * 2)
  else return current

def recalculate (l : ℕ) : Program Buffer ℤ (ℕ × ℕ) :=
  Program.forUp 1 (l + 1) (recalculateStep l) (0, 1)

def errorPosition (nrb : ℕ) : Program Buffer ℤ (ℕ × ℕ) :=
  Program.forUp 0 nrb
    (fun i (current : ℕ × ℕ) => do
      let bit ← load .rb i
      return (if bit = 1 then current.1 + current.2 else current.1, current.2 * 2)) (0, 1)

/-- What `main` does between the two passes. -/
def transmit (eb l : ℕ) : Program Buffer ℤ Unit := do
  changeBit eb
  let _ ← showFrame l
  return

/-- What `main` does after the recalculation. -/
def locate (nrb : ℕ) : Program Buffer ℤ ℕ := do
  let _ ← readOut .rb 0 nrb
  let located ← errorPosition nrb
  return located.1

def main (input : Input) : Program Buffer ℤ ℕ := do
  let laid ← prepare input
  let _ ← parityPass laid.l
  transmit input.eb laid.l
  let _ ← recalculate laid.l
  locate laid.nrb

end Traced

/-! ## What a run leaves in the arrays -/

section Effects

variable {memory : Memory}

theorem update_buffers (memory : Memory) (name : Buffer) (cells : Cells) :
    Function.update memory.buffers name cells = (memory.set name cells).buffers := by
  funext other
  cases name <;> cases other <;> rfl

theorem exists_buffers (buffers : Arrays Buffer ℤ) :
    ∃ memory : Memory, memory.buffers = buffers := by
  refine ⟨⟨buffers .db, buffers .temp, buffers .rb, buffers .df, buffers .a1⟩, ?_⟩
  funext name
  cases name <;> rfl

theorem effect_readFrame (m : ℕ) (frame : Cells) (memory : Memory) :
    (Traced.readFrame m frame).effect memory.buffers =
      ((), { memory with db := readFrame m frame memory.db }.buffers) := by
  rw [Traced.readFrame, Program.effect_forDown_array .db
    (fun i db => Function.update db i (frame (m - 1 - i))) (by simp), update_buffers]
  rfl

/-- The cells of `temp` after the loop that reverses the frame. -/
def reversedCells (m : ℕ) (temp db : Cells) : Cells :=
  (forDown 0 m
    (fun i (current : Cells × ℕ) =>
      (Function.update current.1 current.2 (db i), current.2 + 1)) (temp, 0)).1

theorem effect_reverseFrame (m : ℕ) (memory : Memory) :
    (Traced.reverseFrame m).effect memory.buffers =
      ((), { memory with
        db := reverseFrame m memory.temp memory.db
        temp := reversedCells m memory.temp memory.db }.buffers) := by
  have reversed : (Program.forDown 0 m
      (fun i j => do
        let bit ← load .db i
        store .temp j bit
        return j + 1) 0).effect memory.buffers =
      (fun current : Cells × ℕ => (current.2, { memory with temp := current.1 }.buffers))
        (forDown 0 m (fun i (current : Cells × ℕ) =>
          (Function.update current.1 current.2 (memory.db i), current.2 + 1))
            (memory.temp, 0)) := by
    rw [Program.effect_forDown]
    refine forDown_map (fun current : Cells × ℕ =>
      (current.2, { memory with temp := current.1 }.buffers)) ?_ (memory.temp, 0)
    intro i current _ _
    simp only [Program.effect_bind, Program.effect_load, Program.effect_store, update_buffers,
      Program.effect_pure]
    rfl
  rw [Traced.reverseFrame, Program.effect_bind, reversed, Program.effect_forUp_array .db
    (fun i db => Function.update db i (reversedCells m memory.temp memory.db i))
    (by simp [Memory.buffers, reversedCells]), update_buffers]
  rfl

/-- The counters and the arrays that stand for a state of the layout loop. -/
def Layout.left (memory : Memory) (state : Layout) : Traced.Counters × Arrays Buffer ℤ :=
  ({ i := state.i, j := state.j, k := state.k, nrb := state.nrb, l := state.l },
    { memory with df := state.df }.buffers)

theorem effect_layoutLoop (m : ℕ) (memory : Memory) (state : Layout) :
    (Traced.layoutLoop m (state.left memory).1).effect (state.left memory).2 =
      (layoutLoop m memory.db state).left memory := by
  fun_induction layoutLoop m memory.db state with
  | case1 state more atPower ih =>
      have less : (state.left memory).1.j < m := more
      have same : (state.left memory).1.i = (state.left memory).1.k := atPower
      rw [Traced.layoutLoop, if_pos less, if_pos same, Program.effect_bind, Program.effect_store,
        Layout.left, update_buffers]
      exact ih
  | case2 state more notAtPower ih =>
      have less : (state.left memory).1.j < m := more
      have other : (state.left memory).1.i ≠ (state.left memory).1.k := notAtPower
      rw [Traced.layoutLoop, if_pos less, if_neg other, Program.effect_bind, Program.effect_load,
        Program.effect_bind, Program.effect_store, Layout.left, update_buffers]
      exact ih
  | case3 state done =>
      have notLess : ¬(state.left memory).1.j < m := done
      rw [Traced.layoutLoop, if_neg notLess, Program.effect_pure]

theorem effect_layout (m : ℕ) (memory : Memory) :
    (Traced.layout m).effect memory.buffers = (layout m memory.db memory.df).left memory :=
  effect_layoutLoop m memory { i := 1, j := 0, k := 1, nrb := 0, l := 0, df := memory.df }

theorem effect_showFrame (l : ℕ) (arrays : Arrays Buffer ℤ) :
    ((Traced.showFrame l).effect arrays).2 = arrays := by
  rw [Traced.showFrame, Program.effect_forDown]
  exact forDown_induction (fun _ (current : List ℤ × Arrays Buffer ℤ) => current.2 = arrays)
    (Nat.le_add_left 1 l) rfl fun _ _ _ _ kept => kept

/-- The arrays when `main` comes to the parity pass. -/
def prepared (memory : Memory) (input : Input) : Memory :=
  let frame := readFrame input.m input.frame memory.db
  { memory with
    db := reverseFrame input.m memory.temp frame
    temp := reversedCells input.m memory.temp frame }

theorem effect_prepare (input : Input) (memory : Memory) :
    (Traced.prepare input).effect memory.buffers =
      (layout input.m (prepared memory input).db memory.df).left (prepared memory input) := by
  simp only [Traced.prepare, Program.effect_bind, effect_readFrame, Program.effect_readOut,
    effect_reverseFrame, effect_layout, effect_showFrame, Program.effect_pure]
  rfl

theorem effect_binaryConversion (i7 i6 : ℕ) (memory : Memory) :
    (Traced.binaryConversion i7 i6).effect memory.buffers =
      ((), { memory with a1 := binaryConversion i7 i6 memory.a1 }.buffers) := by
  induction i7 using Nat.strong_induction_on generalizing i6 memory with
  | _ i7 ih =>
      rw [Traced.binaryConversion, binaryConversion]
      by_cases positive : i7 > 0
      · rw [if_pos positive, if_pos positive]
        by_cases one : i7 = 1
        · rw [if_pos one, if_pos one, Program.effect_store, update_buffers]
          rfl
        · have notZero : i7 ≠ 0 := by omega
          rw [if_neg one, if_neg one, if_neg notZero, if_neg notZero, Program.effect_bind,
            Program.effect_store, update_buffers]
          exact ih (i7 / 2) (by omega) (i6 + 1) _
      · rw [if_neg positive, if_neg positive, Program.effect_pure]

theorem effect_countPosition (i4 i2 i3 : ℕ) (memory : Memory) :
    (Traced.countPosition i4 i2 i3).effect memory.buffers =
      let a1 := binaryConversion i2 0
        (forUp 0 Traced.width (fun i6 a1 => Function.update a1 i6 (-1)) memory.a1)
      (if a1 i4 = 1 then if memory.df i2 = 1 then i3 + 1 else i3 else i3,
        { memory with a1 := a1 }.buffers) := by
  have reset : Traced.resetDigits.effect memory.buffers = ((),
      { memory with
        a1 := forUp 0 Traced.width (fun i6 a1 => Function.update a1 i6 (-1)) memory.a1 }.buffers) := by
    rw [Traced.resetDigits,
      Program.effect_forUp_array .a1 (fun i6 a1 => Function.update a1 i6 (-1)) (by simp),
      update_buffers]
    rfl
  simp only [Traced.countPosition, Program.effect_bind, reset, effect_binaryConversion,
    Program.effect_ite, Program.effect_load, Program.effect_pure]
  exact (apply_ite (fun count => (count, _)) _ _ _).symm

/-- The count and the arrays that stand for a state of the scan. -/
def scanLeft (memory : Memory) (state : ℕ × Cells) : ℕ × Arrays Buffer ℤ :=
  (state.1, { memory with a1 := state.2 }.buffers)

theorem effect_countOnes (l i1 : ℕ) (memory : Memory) :
    (Traced.countOnes l i1).effect memory.buffers =
      scanLeft memory (countOnes Traced.width l i1 memory.df memory.a1) := by
  rw [Traced.countOnes, Program.effect_forUp]
  refine forUp_map (scanLeft memory) ?_ (0, memory.a1)
  intro i2 current _ _
  simp only [scanLeft, effect_countPosition]
  split_ifs <;> rfl

/-- The count of redundancy bits and the arrays that stand for a state of a pass. -/
def Check.left (memory : Memory) (state : Check) : ℕ × Arrays Buffer ℤ :=
  (state.i5, { memory with df := state.df, rb := state.rb, a1 := state.a1 }.buffers)

theorem effect_settle (l i1 : ℕ) (memory : Memory) (state : Check) :
    (Traced.settle l i1 (state.left memory).1).effect (state.left memory).2 =
      (settle Traced.width l i1 state).left memory := by
  simp only [Traced.settle, Check.left, Program.effect_bind, effect_countOnes, scanLeft,
    Program.effect_store, update_buffers, Program.effect_pure]
  rfl

theorem effect_parityPass (l : ℕ) (memory : Memory) :
    (Traced.parityPass l).effect memory.buffers =
      (parityPass Traced.width l
        { df := memory.df, rb := memory.rb, i5 := 0, a1 := memory.a1 }).left memory := by
  rw [Traced.parityPass, Program.effect_forUp]
  refine forUp_map (Check.left memory) ?_
    { df := memory.df, rb := memory.rb, i5 := 0, a1 := memory.a1 }
  intro i1 state _ _
  have settled := effect_settle l i1 memory state
  simp only [Traced.parityStep, Program.effect_bind, Program.effect_load, Program.effect_ite,
    settled, Program.effect_readOut, Program.effect_pure]
  exact (apply_ite (Check.left memory) _ _ _).symm

/-- The change and the print behind it. -/
theorem effect_transmit (eb l : ℕ) (memory : Memory) :
    ((Traced.transmit eb l).effect memory.buffers).2 =
      { memory with df := changeBit eb memory.df }.buffers := by
  simp only [Traced.transmit, Traced.changeBit, Program.effect_bind, Program.effect_load,
    Program.effect_store, update_buffers, Program.effect_ite, effect_showFrame,
    Program.effect_pure, changeBit]
  have one : Function.update memory.df eb 1 eb ≠ 0 := by
    rw [Function.update_self]
    decide
  have same : (memory.set .df (Function.update (memory.buffers .df) eb 1)).buffers .df eb ≠ 0 :=
    one
  rw [if_pos one, if_pos same]
  rfl

theorem effect_recalculate (l : ℕ) (memory : Memory) :
    (Traced.recalculate l).effect memory.buffers =
      let checked := recalculate Traced.width l
        { df := memory.df, rb := memory.rb, i5 := 0, a1 := memory.a1 }
      ((checked.1.i5, checked.2), (checked.1.left memory).2) := by
  rw [Traced.recalculate, Program.effect_forUp]
  refine forUp_map (fun current : Check × ℕ =>
    ((current.1.i5, current.2), (current.1.left memory).2)) ?_
      ({ df := memory.df, rb := memory.rb, i5 := 0, a1 := memory.a1 }, 1)
  intro i1 current _ _
  have settled := effect_settle l i1 memory current.1
  simp only [Traced.recalculateStep, Program.effect_ite, Program.effect_bind, Program.effect_pure]
  split
  case isTrue =>
    have count : current.1.i5 = (current.1.left memory).1 := rfl
    rw [count, settled]
    rfl
  case isFalse => rfl

theorem effect_locate (nrb : ℕ) (memory : Memory) :
    (Traced.locate nrb).effect memory.buffers = (errorPosition nrb memory.rb, memory.buffers) := by
  have located : (Traced.errorPosition nrb).effect memory.buffers =
      (forUp 0 nrb (fun i (current : ℕ × ℕ) =>
        (if memory.rb i = 1 then current.1 + current.2 else current.1, current.2 * 2)) (0, 1),
          memory.buffers) := by
    rw [Traced.errorPosition, Program.effect_forUp]
    refine forUp_map (fun current : ℕ × ℕ => (current, memory.buffers)) ?_ (0, 1)
    intro i current _ _
    simp only [Program.effect_bind, Program.effect_load, Program.effect_pure]
    rfl
  simp only [Traced.locate, Program.effect_bind, Program.effect_readOut, located,
    Program.effect_pure, errorPosition]

/-- The program with its accesses computes what `main` does, and leaves it in the arrays. -/
theorem effect_main (input : Input) (memory : Memory) :
    let output := main Traced.width memory input
    let final := (Traced.main input).effect memory.buffers
    final.1 = output.ep ∧ final.2 .df = output.recalculated ∧ final.2 .rb = output.rb := by
  simp only [Traced.main, Program.effect_bind, effect_prepare, Layout.left, effect_parityPass,
    Check.left, effect_transmit, effect_recalculate, effect_locate]
  exact ⟨rfl, rfl, rfl⟩

end Effects

end NetLab.Hamming
