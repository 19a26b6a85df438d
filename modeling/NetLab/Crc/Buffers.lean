import NetLab.Crc.Basic
import NetLab.Imperative.Arrays

/-!
# The buffers of the cyclic redundancy check program

The sender's part of `errcorrection/crc1.c` with its accesses to the four arrays. The degrees of
the generator and of the frame are each limited by an array that is filled with what the user
types; the padded frame has the sum of both.
-/

namespace NetLab.Crc

open NetLab.Imperative
open NetLab.Imperative.Program (load store readOut)

/-- The arrays that `main` declares. -/
inductive Buffer where
  | a
  | g
  | r
  | div
deriving DecidableEq

def Buffer.size : Buffer → ℕ
  | .a => 16
  | .g => 16
  | .r => 20
  | .div => 16

def InBounds (access : Access Buffer) : Prop :=
  access.index < access.array.size

instance : DecidablePred InBounds :=
  fun access => inferInstanceAs (Decidable (access.index < access.array.size))

def Memory.buffers (memory : Memory) : Arrays Buffer (BitVec 32)
  | .a => memory.a
  | .g => memory.g
  | .r => memory.r
  | .div => memory.div

def Memory.set (memory : Memory) (name : Buffer) (cells : Cells) : Memory :=
  match name with
  | .a => { memory with a := cells }
  | .g => { memory with g := cells }
  | .r => { memory with r := cells }
  | .div => { memory with div := cells }

namespace Traced

def readCells (name : Buffer) (count : ℕ) (typed : Cells) : Program Buffer (BitVec 32) Unit :=
  Program.forUp 0 count (fun i _ => store name i (typed i)) ()

/-- The two input loops. -/
def readInput (input : Input) : Program Buffer (BitVec 32) Unit := do
  readCells .g (input.n + 1) input.g
  readCells .a (input.m + 1) input.frame

/-- `m<n || (g[0] && g[n]) == 0`, with the result for a proper generator. -/
def properGenerator (n m : ℕ) : Program Buffer (BitVec 32) Bool :=
  if m < n then return false
  else do
    let first ← load .g 0
    if first = 0#32 then return false
    let last ← load .g n
    return last ≠ 0#32

def padFrame (n m : ℕ) : Program Buffer (BitVec 32) Unit :=
  Program.forUp (m + 1) (m + n + 1) (fun i _ => store .a i 0#32) ()

def window (n i : ℕ) : Program Buffer (BitVec 32) Unit :=
  if i > n then do
    Program.forUp 0 n (fun j _ => load .r (j + 1) >>= store .r j) ()
    load .a i >>= store .r n
  else return

/-- Subtract the generator from the window. -/
def reduce (n : ℕ) : Program Buffer (BitVec 32) Unit :=
  Program.forUp 0 (n + 1)
    (fun j _ => do
      let cell ← load .r j
      let other ← load .g j
      store .r j (cell ^^^ other)) ()

/-- The body of the division loop, which counts `k` up. -/
def divisionStep (n i k : ℕ) : Program Buffer (BitVec 32) ℕ := do
  window n i
  let first ← load .r 0
  if first ≠ 0#32 then
    store .div k 1#32
    reduce n
  else store .div k 0#32
  return k + 1

def division (n last : ℕ) : Program Buffer (BitVec 32) ℕ := do
  Program.forUp 0 (n + 1) (fun j _ => load .a j >>= store .r j) ()
  Program.forUp n (last + 1) (divisionStep n) 0

def appendRemainder (n m : ℕ) : Program Buffer (BitVec 32) ℕ :=
  Program.forUp (m + 1) (m + n + 1)
    (fun i j => do
      let cell ← load .r j
      store .a i cell
      return j + 1) 1

/-- What the sender prints. -/
structure Shown where
  quotient : List (BitVec 32)
  remainder : List (BitVec 32)
  transmitted : List (BitVec 32)

def senderPass (n m : ℕ) : Program Buffer (BitVec 32) Shown := do
  padFrame n m
  let k ← division n (m + n)
  let quotient ← readOut .div 0 k
  let remainder ← readOut .r 1 n
  let _ ← appendRemainder n m
  let transmitted ← readOut .a 0 (m + n + 1)
  return { quotient := quotient, remainder := remainder, transmitted := transmitted }

end Traced

/-! ## What the passes leave in the buffers -/

section Effects

variable {n m : ℕ} {memory : Memory}

theorem update_buffers (memory : Memory) (name : Buffer) (cells : Cells) :
    Function.update memory.buffers name cells = (memory.set name cells).buffers := by
  funext other
  cases name <;> cases other <;> rfl

theorem effect_readCells (name : Buffer) (count : ℕ) (typed : Cells) (memory : Memory) :
    (Traced.readCells name count typed).effect memory.buffers =
      ((), (memory.set name (readCells count typed (memory.buffers name))).buffers) := by
  rw [Traced.readCells,
    Program.effect_forUp_array name (fun i cells => Function.update cells i (typed i)) (by simp),
    update_buffers]
  rfl

theorem effect_readInput (input : Input) (memory : Memory) :
    (Traced.readInput input).effect memory.buffers =
      ((), { memory with
        g := readCells (input.n + 1) input.g memory.g
        a := readCells (input.m + 1) input.frame memory.a }.buffers) := by
  rw [Traced.readInput, Program.effect_bind, effect_readCells, effect_readCells]
  rfl

theorem effect_properGenerator (n m : ℕ) (memory : Memory) :
    (Traced.properGenerator n m).effect memory.buffers =
      (decide (properGenerator n m memory.g), memory.buffers) := by
  rw [Traced.properGenerator]
  by_cases short : m < n
  · simp [short, properGenerator]
  · rw [if_neg short, Program.effect_bind]
    by_cases first : memory.g 0 = 0#32
    · simp [properGenerator, Memory.buffers, first]
    · by_cases last : memory.g n = 0#32
      · simp [properGenerator, Memory.buffers, first, last]
      · simp [properGenerator, Memory.buffers, first, last, short]

theorem effect_padFrame (n m : ℕ) (memory : Memory) :
    (Traced.padFrame n m).effect memory.buffers =
      ((), { memory with a := padFrame n m memory.a }.buffers) := by
  rw [Traced.padFrame,
    Program.effect_forUp_array .a (fun i a => Function.update a i 0#32) (by simp),
    update_buffers]
  rfl

theorem effect_window (n i : ℕ) (memory : Memory) :
    (Traced.window n i).effect memory.buffers =
      ((), { memory with r := window n memory.a i memory.r }.buffers) := by
  rw [Traced.window, window]
  split
  case isTrue later =>
    rw [Program.effect_bind,
      Program.effect_forUp_array .r (fun j r => Function.update r j (r (j + 1))) (by simp),
      Program.effect_bind, Program.effect_load, Program.effect_store,
      update_buffers, update_buffers]
    rfl
  case isFalse => rfl

/-- The count and the buffers that stand for a state of the division. -/
def Division.left (memory : Memory) (state : Division) : ℕ × Arrays Buffer (BitVec 32) :=
  (state.k, { memory with r := state.r, div := state.div }.buffers)

theorem effect_reduce (n : ℕ) (memory : Memory) :
    (Traced.reduce n).effect memory.buffers =
      ((), { memory with
        r := forUp 0 (n + 1) (fun j r => Function.update r j (r j ^^^ memory.g j))
          memory.r }.buffers) := by
  rw [Traced.reduce,
    Program.effect_forUp_array .r
      (fun j r => Function.update r j (r j ^^^ memory.buffers .g j)) (by simp),
    update_buffers]
  rfl

theorem effect_divisionStep (n i : ℕ) (memory : Memory) (state : Division) :
    (Traced.divisionStep n i (state.left memory).1).effect (state.left memory).2 =
      (divisionStep n memory.g memory.a i state).left memory := by
  simp only [Division.left, Traced.divisionStep, Program.effect_bind, effect_window,
    Program.effect_load, divisionStep]
  by_cases first : window n memory.a i state.r 0 ≠ 0#32
  · have head : ({ memory with r := window n memory.a i state.r, div := state.div }.buffers .r) 0 ≠
        0#32 := first
    rw [if_pos first, if_pos head]
    simp only [Program.effect_bind, Program.effect_store, update_buffers, Memory.set,
      effect_reduce, Program.effect_pure]
    rfl
  · have head : ¬({ memory with r := window n memory.a i state.r, div := state.div }.buffers .r) 0 ≠
        0#32 := first
    rw [if_neg first, if_neg head]
    simp only [Program.effect_bind, Program.effect_store, update_buffers, Program.effect_pure]
    rfl

theorem effect_division (n last : ℕ) (memory : Memory) :
    (Traced.division n last).effect memory.buffers =
      (division n last memory.g memory.a memory.r memory.div).left memory := by
  rw [Traced.division, Program.effect_bind,
    Program.effect_forUp_array .r (fun j r => Function.update r j (memory.buffers .a j)) (by simp),
    update_buffers, Program.effect_forUp]
  refine forUp_map (Division.left memory) ?_
    { r := forUp 0 (n + 1) (fun j r => Function.update r j (memory.a j)) memory.r
      div := memory.div
      k := 0 }
  intro i state _ _
  exact effect_divisionStep n i memory state

theorem effect_appendRemainder (n m : ℕ) (memory : Memory) :
    ((Traced.appendRemainder n m).effect memory.buffers).2 =
      { memory with a := appendRemainder n m memory.r memory.a }.buffers := by
  have appended : (Traced.appendRemainder n m).effect memory.buffers =
      (fun current : Cells × ℕ => (current.2, { memory with a := current.1 }.buffers))
        (forUp (m + 1) (m + n + 1) (fun i (current : Cells × ℕ) =>
          (Function.update current.1 i (memory.r current.2), current.2 + 1)) (memory.a, 1)) := by
    rw [Traced.appendRemainder, Program.effect_forUp]
    refine forUp_map (fun current : Cells × ℕ =>
      (current.2, { memory with a := current.1 }.buffers)) ?_ (memory.a, 1)
    intro i current _ _
    simp only [Program.effect_bind, Program.effect_load, Program.effect_store, update_buffers,
      Program.effect_pure]
    rfl
  rw [appended, appendRemainder]

/-- The accesses of the sender's pass are those of a run of the pass itself. -/
theorem effect_senderPass (n m : ℕ) (memory : Memory) :
    (Traced.senderPass n m).effect memory.buffers =
      ({ quotient := (senderPass n m memory).quotient
         remainder := (senderPass n m memory).remainder
         transmitted := transmittedFrame n m memory },
        (senderPass n m memory).memory.buffers) := by
  simp only [Traced.senderPass, Program.effect_bind, effect_padFrame, effect_division,
    Division.left, Program.effect_readOut, effect_appendRemainder, Program.effect_pure]
  simp only [senderPass, transmittedFrame, List.range_eq_range']
  rfl

end Effects

/-! ## The accesses of the passes -/

section Accesses

variable {n m : ℕ} {buffers : Arrays Buffer (BitVec 32)}

theorem makes_readCells (name : Buffer) (count : ℕ) (typed : Cells) :
    (Traced.readCells name count typed).Makes InBounds buffers ↔ count ≤ name.size := by
  have stores : (Traced.readCells name count typed).Makes InBounds buffers ↔
      ∀ i, 0 ≤ i → i < count → i < name.size := by
    apply Program.makes_forUp_iff
    intro i _ buffers _ _
    exact Program.makes_store
  rw [stores]
  constructor
  · intro all
    by_contra long
    exact absurd (all name.size (Nat.zero_le _) (by omega)) (lt_irrefl _)
  · intro short i _ below
    exact below.trans_le short

theorem makes_readInput (input : Input) :
    (Traced.readInput input).Makes InBounds buffers ↔ input.n < 16 ∧ input.m < 16 := by
  rw [Traced.readInput, Program.makes_bind, makes_readCells, makes_readCells]
  exact Iff.rfl

theorem makes_padFrame (fits : m + n < 16) : (Traced.padFrame n m).Makes InBounds buffers := by
  apply Program.makes_forUp_of_forall
  intro i _ buffers _ below
  simp only [Program.makes_store, InBounds, Buffer.size]
  omega

theorem makes_window {i : ℕ} (short : n < 16) (inside : i < 16) :
    (Traced.window n i).Makes InBounds buffers := by
  rw [Traced.window]
  split
  case isTrue =>
    simp only [Program.makes_bind, Program.makes_load, Program.makes_store, InBounds, Buffer.size]
    refine ⟨?_, inside, by omega⟩
    apply Program.makes_forUp_of_forall
    intro j _ buffers _ below
    simp only [Program.makes_bind, Program.makes_load, Program.makes_store, InBounds, Buffer.size]
    omega
  case isFalse => exact Program.makes_pure _

theorem makes_reduce (short : n < 16) : (Traced.reduce n).Makes InBounds buffers := by
  apply Program.makes_forUp_of_forall
  intro j _ buffers _ below
  simp only [Program.makes_bind, Program.makes_load, Program.makes_store, InBounds, Buffer.size]
  omega

theorem makes_divisionStep {i k : ℕ} (short : n < 16) (inside : i < 16) (room : k < 16) :
    (Traced.divisionStep n i k).Makes InBounds buffers := by
  rw [Traced.divisionStep, Program.makes_bind, Program.makes_bind, Program.makes_load]
  refine ⟨makes_window short inside, by simp [InBounds, Buffer.size], ?_⟩
  split
  case isTrue =>
    simp only [Program.makes_bind, Program.makes_store, makes_reduce short, Program.makes_pure,
      and_true, InBounds, Buffer.size]
    exact room
  case isFalse =>
    simp only [Program.makes_bind, Program.makes_store, Program.makes_pure, and_true, InBounds,
      Buffer.size]
    exact room

theorem result_divisionStep (n i k : ℕ) (buffers : Arrays Buffer (BitVec 32)) :
    ((Traced.divisionStep n i k).effect buffers).1 = k + 1 := by
  simp only [Traced.divisionStep, Program.effect_bind]
  split <;> rfl

/-- The quotient has a cell for each pass of the division loop. -/
theorem result_division (n last : ℕ) (buffers : Arrays Buffer (BitVec 32)) :
    ((Traced.division n last).effect buffers).1 = last + 1 - n := by
  rw [Traced.division, Program.effect_bind, Program.effect_forUp]
  rcases Nat.lt_or_ge (last + 1) n with empty | le
  · rw [forUp_of_le empty.le]
    omega
  · apply forUp_induction (fun i (current : ℕ × Arrays Buffer (BitVec 32)) => current.1 = i - n) le
    · exact (Nat.sub_self n).symm
    · intro i current lower _ count
      rw [result_divisionStep, count]
      omega

theorem makes_division (long : n ≤ m) (fits : m + n < 16) :
    (Traced.division n (m + n)).Makes InBounds buffers := by
  rw [Traced.division, Program.makes_bind]
  constructor
  · apply Program.makes_forUp_of_forall
    intro j _ buffers _ below
    simp only [Program.makes_bind, Program.makes_load, Program.makes_store, InBounds, Buffer.size]
    omega
  · refine Program.makes_forUp_of (fun i current => current.1 = i - n) ?_ ?_
    · exact (Nat.sub_self n).symm
    · intro i current lower upper count
      refine ⟨makes_divisionStep (by omega) (by omega) (by omega), ?_⟩
      rw [result_divisionStep, count]
      omega

theorem makes_appendRemainder (fits : m + n < 16) :
    (Traced.appendRemainder n m).Makes InBounds buffers := by
  refine Program.makes_forUp_of (fun i current => current.1 + m = i) ?_ ?_
  · exact Nat.add_comm 1 m
  · intro i current lower upper count
    simp only [Program.makes_bind, Program.makes_load, Program.makes_store, Program.makes_pure,
      and_true, Program.effect_bind, Program.effect_pure, Program.effect_load,
      Program.effect_store, InBounds, Buffer.size]
    omega

theorem makes_readOut {name : Buffer} {first count : ℕ} (fits : first + count ≤ name.size) :
    (readOut name first count).Makes InBounds buffers :=
  Program.makes_readOut.mpr fun _ _ below => below.trans_le fits

theorem makes_senderPass (long : n ≤ m) :
    (Traced.senderPass n m).Makes InBounds buffers ↔ m + n < 16 := by
  simp only [Traced.senderPass, Program.makes_bind, Program.makes_pure, and_true]
  constructor
  · rintro ⟨_, _, _, _, _, transmitted⟩
    exact Program.makes_readOut.mp transmitted (m + n) (Nat.zero_le _) (by omega)
  · intro fits
    refine ⟨makes_padFrame fits, makes_division long fits, ?_, ?_, makes_appendRemainder fits, ?_⟩
    · apply makes_readOut
      rw [result_division]
      simp only [Buffer.size]
      omega
    · apply makes_readOut
      simp only [Buffer.size]
      omega
    · apply makes_readOut
      simp only [Buffer.size]
      omega

end Accesses

/-- Once the input is accepted, the sender stays inside its buffers exactly when the padded frame
fits into the one of the frame. -/
theorem senderPass_inBounds_iff (memory : Memory) (input : Input)
    (proper : ((Traced.properGenerator input.n input.m).effect
      ((Traced.readInput input).effect memory.buffers).2).1 = true) :
    (Traced.senderPass input.n input.m).Makes InBounds
        ((Traced.readInput input).effect memory.buffers).2 ↔
      input.m + input.n < 16 := by
  rw [effect_readInput, effect_properGenerator, decide_eq_true_eq] at proper
  have long : input.n ≤ input.m := Nat.le_of_not_lt fun short => proper (Or.inl short)
  exact makes_senderPass long

/-- A generator and a frame of these degrees, with ones only. -/
def allOnes (n m : ℕ) : Input :=
  { n := n
    g := fun _ => 1#32
    m := m
    frame := fun _ => 1#32
    receivedDegree := m
    received := fun _ => 1#32 }

def clearMemory : Memory :=
  { a := fun _ => 0#32, g := fun _ => 0#32, r := fun _ => 0#32, div := fun _ => 0#32 }

example : (Traced.senderPass 2 5).Makes InBounds clearMemory.buffers := by
  decide +kernel

theorem senderPass_inBounds_seven :
    (Traced.senderPass 3 7).Makes InBounds
        ((Traced.readInput (allOnes 3 7)).effect clearMemory.buffers).2 ↔ 7 + 3 < 16 :=
  senderPass_inBounds_iff clearMemory (allOnes 3 7) (by decide +kernel)

/-- With degrees 8 and 10, both arrays take what is typed, and the padded frame has 19 cells. -/
theorem padded_frame_overruns :
    (Traced.readInput (allOnes 8 10)).Makes InBounds clearMemory.buffers ∧
      ((Traced.properGenerator 8 10).effect
        ((Traced.readInput (allOnes 8 10)).effect clearMemory.buffers).2).1 = true ∧
      ¬(Traced.senderPass 8 10).Makes InBounds
        ((Traced.readInput (allOnes 8 10)).effect clearMemory.buffers).2 := by
  refine ⟨(makes_readInput _).mpr (by decide), by decide +kernel, ?_⟩
  rw [makes_senderPass (by decide)]
  decide

end NetLab.Crc
