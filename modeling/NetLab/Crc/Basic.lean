import NetLab.Imperative.Loop

/-!
# The cyclic redundancy check program

The embedding of `errcorrection/crc1.c`. An `int` is a 32-bit vector, so that
`^` is exclusive or and a condition such as `if(r[0])` tests for a non-zero
pattern. Arrays are total functions from positions to cells. The sender pass
and the receiver pass divide with the same lines; they are `division` here.
-/

namespace NetLab.Crc

open NetLab.Imperative

abbrev Cells := ℕ → BitVec 32

structure Memory where
  a : Cells
  g : Cells
  r : Cells
  div : Cells

/-- Read one value for each position below `count`. -/
def readCells (count : ℕ) (typed cells : Cells) : Cells :=
  forUp 0 count (fun i cells => Function.update cells i (typed i)) cells

structure Division where
  r : Cells
  div : Cells
  k : ℕ

/-- The window at the start of an iteration: after the first one it moves on by one cell. -/
def window (n : ℕ) (a : Cells) (i : ℕ) (r : Cells) : Cells :=
  if i > n then
    Function.update (forUp 0 n (fun j r => Function.update r j (r (j + 1))) r) n (a i)
  else r

/-- The body of the division loop. -/
def divisionStep (n : ℕ) (g a : Cells) (i : ℕ) (state : Division) : Division :=
  let r := window n a i state.r
  if r 0 ≠ 0#32 then
    { r := forUp 0 (n + 1) (fun j r => Function.update r j (r j ^^^ g j)) r
      div := Function.update state.div state.k 1#32
      k := state.k + 1 }
  else
    { r := r
      div := Function.update state.div state.k 0#32
      k := state.k + 1 }

/-- `for (i = n; i <= last; i++)`, with the window loaded from the first cells of the frame. -/
def division (n last : ℕ) (g a r div : Cells) : Division :=
  let r := forUp 0 (n + 1) (fun j r => Function.update r j (a j)) r
  forUp n (last + 1) (divisionStep n g a) { r := r, div := div, k := 0 }

structure Printed where
  quotient : List (BitVec 32)
  remainder : List (BitVec 32)
  memory : Memory

def padFrame (n m : ℕ) (a : Cells) : Cells :=
  forUp (m + 1) (m + n + 1) (fun i a => Function.update a i 0#32) a

/-- Store the remainder, which starts at `r[1]`, over the zeros. -/
def appendRemainder (n m : ℕ) (r a : Cells) : Cells :=
  (forUp (m + 1) (m + n + 1)
    (fun i (current : Cells × ℕ) =>
      (Function.update current.1 i (r current.2), current.2 + 1)) (a, 1)).1

/-- The sender pass: pad, divide, and append the remainder to the frame. -/
def senderPass (n m : ℕ) (memory : Memory) : Printed :=
  let padded := padFrame n m memory.a
  let divided := division n (m + n) memory.g padded memory.r memory.div
  { quotient := (List.range divided.k).map divided.div
    remainder := (List.range' 1 n).map divided.r
    memory :=
      { memory with
        a := appendRemainder n m divided.r padded
        r := divided.r
        div := divided.div } }

def transmittedFrame (n m : ℕ) (memory : Memory) : List (BitVec 32) :=
  (List.range (m + n + 1)).map (senderPass n m memory).memory.a

/-- The receiver pass on a typed frame of degree `m`. -/
def receiverPass (n m : ℕ) (typed : Cells) (memory : Memory) : Printed :=
  let a := readCells (m + 1) typed memory.a
  let divided := division n m memory.g a memory.r memory.div
  { quotient := (List.range divided.k).map divided.div
    remainder := (List.range' 1 n).map divided.r
    memory := { memory with a := a, r := divided.r, div := divided.div } }

/-- The `flag` that falls when a cell of the remainder is not zero. -/
def noErrorFlag (n : ℕ) (r : Cells) : Bool :=
  forUp 1 (n + 1) (fun i (flag : Bool) => if r i ≠ 0#32 then false else flag) true

def verdict (n : ℕ) (r : Cells) : String :=
  if noErrorFlag n r then "\n No Error\n" else "\nError"

/-- What the user types: the generator, the frame to send and the frame received, each with its
degree. -/
structure Input where
  n : ℕ
  g : Cells
  m : ℕ
  frame : Cells
  receivedDegree : ℕ
  received : Cells

inductive Output where
  | notProper (message : String)
  | checked (sender : Printed) (transmitted : List (BitVec 32)) (receiver : Printed)
      (message : String)

/-- The check that the generator has to pass. -/
def properGenerator (n m : ℕ) (g : Cells) : Prop :=
  ¬(m < n ∨ ¬(g 0 ≠ 0#32 ∧ g n ≠ 0#32))

instance (n m : ℕ) (g : Cells) : Decidable (properGenerator n m g) :=
  inferInstanceAs (Decidable (¬(m < n ∨ ¬(g 0 ≠ 0#32 ∧ g n ≠ 0#32))))

def main (memory : Memory) (input : Input) : Output :=
  let memory :=
    { memory with
      g := readCells (input.n + 1) input.g memory.g
      a := readCells (input.m + 1) input.frame memory.a }
  if properGenerator input.n input.m memory.g then
    let sent := senderPass input.n input.m memory
    let checked := receiverPass input.n input.receivedDegree input.received sent.memory
    .checked sent (transmittedFrame input.n input.m memory) checked
      (verdict input.n checked.memory.r)
  else .notProper "Not a proper generator \n"

end NetLab.Crc
