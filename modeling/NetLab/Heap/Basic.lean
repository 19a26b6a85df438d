import NetLab.Imperative.Loop
import NetLab.Structures.PriorityQueue
import Mathlib.Data.Nat.Cast.Order.Basic
import Mathlib.Data.Int.Cast.Lemmas

/-!
# The heap of `heap.c`

The two global variables are the state. The array is a total function on the
integers: `DeleteMin` on an empty heap runs `heapSize` below zero, and `now/2`
is the division of C, which rounds towards zero. Both loops are run with fuel,
because the loop of `Insert` need not end for an element below the sentinel.
-/

namespace NetLab.Heap

open NetLab.Imperative NetLab.Structures

def intMax : ℤ := 2147483647

def sentinel : ℤ := -intMax

def capacity : ℕ := 1000000

/-- `int heap[1000000], heapSize;`. -/
structure Globals where
  heap : ℤ → ℤ
  heapSize : ℤ

/-- What a sift loop changes: the array, and the index `now` where the hole is. -/
structure Sift where
  heap : ℤ → ℤ
  now : ℤ

/-- `heap[now] = value`. -/
def Sift.fill (sift : Sift) (value : ℤ) : ℤ → ℤ :=
  Function.update sift.heap sift.now value

/-- `heap[now] = heap[next]`, and `next` is where the hole is now. -/
def Sift.move (sift : Sift) (next : ℤ) : Sift where
  heap := sift.fill (sift.heap next)
  now := next

def init (globals : Globals) : Globals where
  heap := Function.update globals.heap 0 sentinel
  heapSize := 0

/-- The loop of `Insert`. -/
def insertPass (element : ℤ) (sift : Sift) : Pass Sift Sift :=
  if sift.heap (sift.now.tdiv 2) > element then .again (sift.move (sift.now.tdiv 2))
  else .leave sift

def insert (fuel : ℕ) (element : ℤ) (globals : Globals) : Option Globals := do
  let heapSize := globals.heapSize + 1
  let heap := Function.update globals.heap heapSize element
  let sift ← loop (insertPass element) fuel { heap, now := heapSize }
  some { heap := sift.fill element, heapSize }

/-- The child chosen in a pass of `DeleteMin`. -/
def smallerChild (heapSize : ℤ) (sift : Sift) : ℤ :=
  let child := sift.now * 2
  if child ≠ heapSize ∧ sift.heap (child + 1) < sift.heap child then child + 1 else child

/-- The loop of `DeleteMin`. -/
def deleteMinPass (heapSize lastElement : ℤ) (sift : Sift) : Pass Sift Sift :=
  if sift.now * 2 ≤ heapSize then
    if lastElement > sift.heap (smallerChild heapSize sift) then
      .again (sift.move (smallerChild heapSize sift))
    else .leave sift
  else .leave sift

def deleteMin (fuel : ℕ) (globals : Globals) : Option (ℤ × Globals) := do
  let minElement := globals.heap 1
  let lastElement := globals.heap globals.heapSize
  let heapSize := globals.heapSize - 1
  let sift ← loop (deleteMinPass heapSize lastElement) fuel { heap := globals.heap, now := 1 }
  some (minElement, { heap := sift.fill lastElement, heapSize })

/-- Perform one call; only `DeleteMin` returns an element. -/
def serve (fuel : ℕ) (call : Request ℤ) (globals : Globals) : Option (Option ℤ × Globals) :=
  match call with
  | .insert element => (insert fuel element globals).map fun after => (none, after)
  | .deleteMin => (deleteMin fuel globals).map fun (least, after) => (some least, after)

structure Event where
  before : Globals
  call : Request ℤ
  returned : Option ℤ
  after : Globals

def run (fuel : ℕ) : Globals → List (Request ℤ) → Option (List Event)
  | _, [] => some []
  | before, call :: calls => do
      let (returned, after) ← serve fuel call before
      let events ← run fuel after calls
      some ({ before, call, returned, after } :: events)

/-- A call that may be made on a heap of `size` elements: a deletion finds an element, an inserted
element is not below the sentinel, and there is a cell for it. -/
def LegalCall (size : ℕ) : Request ℤ → Prop
  | .insert element => sentinel ≤ element ∧ size + 1 < capacity
  | .deleteMin => 1 ≤ size

def sizeAfter (size : ℕ) : Request ℤ → ℕ
  | .insert _ => size + 1
  | .deleteMin => size - 1

/-- Every call of the sequence may be made when its turn comes. -/
def Legal : ℕ → List (Request ℤ) → Prop
  | _, [] => True
  | size, call :: calls => LegalCall size call ∧ Legal (sizeAfter size call) calls

/-- The array as seen by the positive indices. -/
def tree (heap : ℤ → ℤ) : ℕ → ℤ :=
  fun position => heap position

@[simp]
theorem tree_update (heap : ℤ → ℤ) (position : ℕ) (value : ℤ) :
    tree (Function.update heap position value) = Function.update (tree heap) position value :=
  Function.update_comp_eq_of_injective heap Nat.cast_injective position value

end NetLab.Heap
