import NetLab.Heap.Runs
import NetLab.Heap.Sentinel
import NetLab.Posix.Text
import Mathlib.Data.Int.ConditionallyCompleteOrder
import Mathlib.Data.Multiset.Sort

/-!
# The program `heap.c`

Its `main` inserts the numbers it reads and prints what it deletes. The second loop empties a heap
that the first one has filled, and what a heap gives away until it is empty is sorted.
-/

namespace NetLab.Heap

open NetLab.Imperative NetLab.Posix NetLab.Structures

/-- The values of `element` in the first loop. At the end of the input `scanf` leaves it alone. -/
def scanned (element : ℤ) : ℕ → List ℤ → List ℤ
  | 0, _ => []
  | count + 1, input =>
      let element := input.headD element
      element :: scanned element count input.tail

/-- The first loop of `main`. -/
def insertAll (fuel : ℕ) : List ℤ → Globals → Option Globals
  | [], globals => some globals
  | element :: elements, globals => do
      let globals ← insert fuel element globals
      insertAll fuel elements globals

/-- The second loop of `main`, with the numbers that it prints. -/
def deleteAll (fuel : ℕ) : ℕ → Globals → Option (List ℤ)
  | 0, _ => some []
  | count + 1, globals => do
      let (least, globals) ← deleteMin fuel globals
      let rest ← deleteAll fuel count globals
      some (least :: rest)

/-- What `main` writes of the numbers. -/
def printed (numbers : List ℤ) : List Byte :=
  numbers.flatMap (fun number => decimal number ++ literal " ") ++ literal "\n"

/-- What `main` reads: a number for which the array has room, and the numbers behind it. The
variable `element` is not initialised. -/
structure Input where
  numberOfElements : ℤ
  behind : List ℤ
  element : ℤ
  fits : numberOfElements < capacity
  isInt : IsInt element ∧ ∀ number ∈ behind, IsInt number

/-- How often both loops of `main` are run. -/
def Input.count (input : Input) : ℕ :=
  input.numberOfElements.toNat

def Input.numbers (input : Input) : List ℤ :=
  scanned input.element input.count input.behind

def main (fuel : ℕ) (memory : Globals) (input : Input) : Option (List Byte) := do
  let globals ← insertAll fuel input.numbers (init memory)
  let numbers ← deleteAll fuel input.count globals
  some (printed numbers)

theorem length_scanned (element : ℤ) (count : ℕ) (input : List ℤ) :
    (scanned element count input).length = count := by
  induction count generalizing element input with
  | zero => rfl
  | succ count ih => exact congrArg (· + 1) (ih _ _)

theorem isInt_of_mem_scanned {element : ℤ} {count : ℕ} {input : List ℤ}
    (isInt : IsInt element ∧ ∀ number ∈ input, IsInt number) :
    ∀ number ∈ scanned element count input, IsInt number := by
  induction count generalizing element input with
  | zero => exact List.forall_mem_nil _
  | succ count ih =>
      cases input with
      | nil => exact List.forall_mem_cons.mpr ⟨isInt.1, ih isInt⟩
      | cons first input =>
          have ⟨head, tail⟩ := List.forall_mem_cons.mp isInt.2
          exact List.forall_mem_cons.mpr ⟨head, ih ⟨head, tail⟩⟩

section Loops

variable {globals : Globals} {size fuel : ℕ} {elements : List ℤ}

theorem insertAll_bounded (bounded : Bounded globals size)
    (legal : ∀ element ∈ elements, sentinel ≤ element)
    (enough : size + elements.length < fuel) :
    ∃ after, insertAll fuel elements globals = some after ∧
      Bounded after (size + elements.length) ∧ held after = held globals + elements := by
  induction elements generalizing globals size with
  | nil => exact ⟨globals, rfl, bounded, by simp⟩
  | cons element elements ih =>
      rw [List.forall_mem_cons] at legal
      rw [List.length_cons] at enough ⊢
      rcases insert_valid bounded.valid legal.1 (by omega : size + 1 < fuel) with
        ⟨next, inserted, valid, grown⟩
      have stays : Bounded next (size + 1) := by
        refine ⟨valid, ?_⟩
        rw [grown]
        exact Multiset.forall_mem_cons.mpr ⟨legal.1, bounded.elements⟩
      rcases ih stays legal.2 (by omega) with ⟨after, runs, bounded, filled⟩
      refine ⟨after, ?_, ?_, ?_⟩
      · simp only [insertAll, inserted, Option.bind_eq_bind, Option.bind_some, runs]
      · rwa [Nat.add_assoc, Nat.add_comm 1] at bounded
      · rw [filled, grown, ← Multiset.cons_coe, Multiset.cons_add, Multiset.add_cons]

/-- An element below the sentinel is not got past. -/
theorem insertAll_none (bounded : Bounded globals size) {element : ℤ}
    (listed : element ∈ elements) (below : element < sentinel) (fuel : ℕ) :
    insertAll fuel elements globals = none := by
  induction elements generalizing globals size with
  | nil => cases listed
  | cons first elements ih =>
      rw [insertAll, Option.bind_eq_bind, Option.bind_eq_none_iff]
      intro next inserted
      have served : serve fuel (.insert first) globals = some (none, next) := by
        simp only [serve, inserted, Option.map_some]
      rcases bounded.serve (fun deletes => by cases deletes) served with ⟨stays, legal⟩
      rcases List.mem_cons.mp listed with rfl | later
      · exact absurd (legal element rfl) (not_le.mpr below)
      · exact ih stays later

/-- What is deleted until nothing is left is what was held, in order. -/
theorem deleteAll_sorts (valid : Valid globals size) (enough : size ≤ fuel) :
    deleteAll fuel size globals = some ((held globals).sort (· ≤ ·)) := by
  induction size generalizing globals with
  | zero =>
      have empty : held globals = 0 := Multiset.card_eq_zero.mp valid.card_held
      rw [empty, Multiset.sort_zero, deleteAll]
  | succ size ih =>
      rcases deleteMin_valid valid (by omega : size < fuel) with
        ⟨least, after, runs, after_valid, minimum, split⟩
      have smallest : ∀ other ∈ held after, least ≤ other := by
        intro other kept
        apply minimum.2
        rw [← split]
        exact Multiset.mem_cons_of_mem kept
      simp only [deleteAll, runs, Option.bind_eq_bind, Option.bind_some,
        ih after_valid (by omega)]
      rw [← split, Multiset.sort_cons _ _ _ smallest]

end Loops

/-- The program prints the numbers it has read in ascending order, unless the least `int` is among
them; then it prints nothing and runs for ever. -/
theorem main_sorts_or_hangs (memory : Globals) (input : Input) :
    (intMin ∉ input.numbers → ∀ fuel, input.count < fuel →
      main fuel memory input = some (printed (input.numbers.mergeSort (· ≤ ·)))) ∧
    (intMin ∈ input.numbers → ∀ fuel, main fuel memory input = none) := by
  have bounded : Bounded (init memory) 0 := by
    refine ⟨init_valid memory, ?_⟩
    intro element listed
    rw [(init_valid memory).held_eq, contents_zero] at listed
    cases listed
  have length : input.numbers.length = input.count := length_scanned _ _ _
  constructor
  · intro absent fuel enough
    have legal : ∀ number ∈ input.numbers, sentinel ≤ number := by
      intro number listed
      have least := (isInt_of_mem_scanned input.isInt number listed).1
      have other : number ≠ intMin := fun same => absent (same ▸ listed)
      simp only [intMin, sentinel, intMax] at least other ⊢
      omega
    have room : 0 + input.numbers.length < fuel := by omega
    rcases insertAll_bounded bounded legal room with ⟨after, runs, full, filled⟩
    have empty : held (init memory) = 0 := contents_zero _
    have deletes := deleteAll_sorts full.valid room.le
    rw [filled, empty, zero_add, zero_add, Multiset.coe_sort, length] at deletes
    rw [main, runs, Option.bind_eq_bind, Option.bind_some, deletes, Option.bind_eq_bind,
      Option.bind_some]
  · intro present fuel
    have stuck := insertAll_none bounded present (by decide) fuel
    rw [main, stuck, Option.bind_eq_bind, Option.bind_none]

end NetLab.Heap
