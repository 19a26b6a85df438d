import NetLab.Imperative.Loop
import Mathlib.Data.Int.Basic

/-!
# The Hamming code program

The embedding of `errcorrection/hamming.cpp`. Arrays are total functions from
positions to cells, so that a frame of any length fits; the counters are
natural numbers, and `i4`, which starts at `-1`, is an integer. The width of
the scratch array `a1` is a parameter (`4` in the declaration and in the two
reset loops). Uninitialised arrays hold arbitrary cells.

The parity pass and the recalculation pass of the source repeat the same lines
for a single redundancy bit; they are `settle` here. The passes differ in how
they recognise a redundancy position: the first looks for the `-1` that the
layout loop left, the second compares the position with the running power `k`.
-/

namespace NetLab.Hamming

open NetLab.Imperative

abbrev Cells := ℕ → ℤ

structure Memory where
  db : Cells
  temp : Cells
  rb : Cells
  df : Cells
  a1 : Cells

/-- What the user types: the frame size, the frame, the number of redundancy bits (read and not
used) and the position of the error. -/
structure Input where
  m : ℕ
  frame : Cells
  r : ℤ
  eb : ℕ

/-- Read the frame: the first value typed goes to the last cell. -/
def readFrame (m : ℕ) (frame db : Cells) : Cells :=
  forDown 0 m (fun i db => Function.update db i (frame (m - 1 - i))) db

def reverseFrame (m : ℕ) (temp db : Cells) : Cells :=
  let reversed := forDown 0 m
    (fun i (current : Cells × ℕ) =>
      (Function.update current.1 current.2 (db i), current.2 + 1)) (temp, 0)
  forUp 0 m (fun i db => Function.update db i (reversed.1 i)) db

structure Layout where
  i : ℕ
  j : ℕ
  k : ℕ
  nrb : ℕ
  l : ℕ
  df : Cells

/-- `for (i = 1, j = 0; j < m; i++)`: a `-1` at every power of two, the frame elsewhere. -/
def layoutLoop (m : ℕ) (db : Cells) (state : Layout) : Layout :=
  if state.j < m then
    if state.i = state.k then
      layoutLoop m db
        { state with
          df := Function.update state.df state.i (-1)
          k := state.k * 2
          nrb := state.nrb + 1
          l := state.l + 1
          i := state.i + 1 }
    else
      layoutLoop m db
        { state with
          df := Function.update state.df state.i (db state.j)
          j := state.j + 1
          l := state.l + 1
          i := state.i + 1 }
  else state
-- A redundancy position takes no frame bit, but at most two of them stand side by side.
termination_by 3 * (m - state.j) + if state.i = state.k then if state.k = 1 then 2 else 1 else 0
decreasing_by
  · split_ifs <;> omega
  · split_ifs <;> omega

def layout (m : ℕ) (db df : Cells) : Layout :=
  layoutLoop m db { i := 1, j := 0, k := 1, nrb := 0, l := 0, df := df }

/-- The `while (i7 > 0)` loop that counts the position of the leading one into `i4`. -/
def onePosition (i7 : ℕ) (i4 : ℤ) : ℤ :=
  if i7 > 0 then
    if i7 = 1 then i4 + 1 else onePosition (i7 / 2) (i4 + 1)
  else i4

/-- The `while (i7 > 0)` loop that writes the binary digits of `i7` to `a1` from cell `i6` on. -/
def binaryConversion (i7 i6 : ℕ) (a1 : Cells) : Cells :=
  if i7 > 0 then
    if i7 = 1 then Function.update a1 i6 1
    else if i7 = 0 then binaryConversion i7 (i6 + 1) (Function.update a1 i6 0)
    else binaryConversion (i7 / 2) (i6 + 1) (Function.update a1 i6 (i7 % 2 : ℕ))
  else a1
termination_by i7
decreasing_by
  -- The source also tests `i7 == 0` inside the loop, where it cannot hold.
  · omega
  · omega

/-- The scan of the whole frame for the redundancy bit at `i1`: how many ones its group has, and
the scratch array afterwards. -/
def countOnes (W l i1 : ℕ) (df a1 : Cells) : ℕ × Cells :=
  let i4 := onePosition i1 (-1)
  forUp 1 (l + 1)
    (fun i2 (current : ℕ × Cells) =>
      let a1 := forUp 0 W (fun i6 a1 => Function.update a1 i6 (-1)) current.2
      let a1 := binaryConversion i2 0 a1
      -- `i4` counts up from `-1` at least once, because `i1` is not zero.
      if a1 i4.toNat = 1 then
        if df i2 = 1 then (current.1 + 1, a1) else (current.1, a1)
      else (current.1, a1))
    (0, a1)

structure Check where
  df : Cells
  rb : Cells
  i5 : ℕ
  a1 : Cells

/-- Calculate the redundancy bit at `i1` and store it in `df` and in `rb`. -/
def settle (W l i1 : ℕ) (state : Check) : Check :=
  let (i3, a1) := countOnes W l i1 state.df state.a1
  let bit : ℤ := if i3 % 2 = 0 then 0 else 1
  { df := Function.update state.df i1 bit
    rb := Function.update state.rb state.i5 bit
    i5 := state.i5 + 1
    a1 := a1 }

/-- Scan the whole frame and calculate all redundancy bits. -/
def parityPass (W l : ℕ) (state : Check) : Check :=
  forUp 1 (l + 1) (fun i1 state => if state.df i1 = -1 then settle W l i1 state else state) state

/-- Change the bit at `eb`. The condition of the source is the assignment `df[eb]=1`. -/
def changeBit (eb : ℕ) (df : Cells) : Cells :=
  let df := Function.update df eb 1
  if df eb ≠ 0 then Function.update df eb 0 else Function.update df eb 1

/-- Recalculate the redundancy bits of the received word, with `k` the next power of two. -/
def recalculate (W l : ℕ) (state : Check) : Check × ℕ :=
  forUp 1 (l + 1)
    (fun i1 (current : Check × ℕ) =>
      if i1 = current.2 then (settle W l i1 current.1, current.2 * 2) else current)
    ({ state with i5 := 0 }, 1)

/-- Add up the error position from the recalculated redundancy bits. -/
def errorPosition (nrb : ℕ) (rb : Cells) : ℕ :=
  (forUp 0 nrb
    (fun i (current : ℕ × ℕ) =>
      (if rb i = 1 then current.1 + current.2 else current.1, current.2 * 2)) (0, 1)).1

/-- What `main` computes and prints: the frame, the length and the words it passes through, the
redundancy bits before and after the change, and the error position. -/
structure Output where
  frame : Cells
  nrb : ℕ
  l : ℕ
  encoded : Cells
  sent : Cells
  received : Cells
  recalculated : Cells
  rb : Cells
  ep : ℕ

def main (W : ℕ) (memory : Memory) (input : Input) : Output :=
  let frame := readFrame input.m input.frame memory.db
  let db := reverseFrame input.m memory.temp frame
  let laid := layout input.m db memory.df
  let coded := parityPass W laid.l { df := laid.df, rb := memory.rb, i5 := 0, a1 := memory.a1 }
  let received := changeBit input.eb coded.df
  let checked := (recalculate W laid.l { coded with df := received }).1
  { frame := frame
    nrb := laid.nrb
    l := laid.l
    encoded := coded.df
    sent := coded.rb
    received := received
    recalculated := checked.df
    rb := checked.rb
    ep := errorPosition laid.nrb checked.rb }

end NetLab.Hamming
