import NetLab.Heap.Runs

/-!
# The sentinel of the heap

The loop of `Insert` ends because `heap[0]` is not above the element. `-INT_MAX` is
not the least `int`, so the loop does not end for `INT_MIN`. `DeleteMin` does not look
at `heapSize`, so on an empty heap it makes it negative, and the next insertion then
stores its element over the sentinel.
-/

namespace NetLab.Heap

open NetLab.Imperative NetLab.Structures

def intMin : ℤ := -2147483648

def IsInt (value : ℤ) : Prop :=
  intMin ≤ value ∧ value ≤ intMax

instance (value : ℤ) : Decidable (IsInt value) :=
  inferInstanceAs (Decidable (_ ∧ _))

/-- The heaps that calls lead to from `Init`, with no deletion from an empty one. -/
inductive Reachable : Globals → Prop where
  | init (memory : Globals) : Reachable (init memory)
  | serve {globals after : Globals} {call : Request ℤ} {fuel : ℕ} {answer : Option ℤ}
      (reachable : Reachable globals) (permitted : call = .deleteMin → 1 ≤ globals.heapSize)
      (served : serve fuel call globals = some (answer, after)) : Reachable after

/-- The array and the index with which the loop of `Insert` starts. -/
def insertStart (element : ℤ) (globals : Globals) : Sift where
  heap := Function.update globals.heap (globals.heapSize + 1) element
  now := globals.heapSize + 1

/-- The loop of `Insert` ends at an index of the heap and has left the sentinel alone. -/
def InsertEnds (element : ℤ) (globals : Globals) : Prop :=
  ∃ fuel last, loop (insertPass element) fuel (insertStart element globals) = some last ∧
    1 ≤ last.now ∧ last.now ≤ globals.heapSize + 1 ∧ last.heap 0 = globals.heap 0

/-- The state in which `Insert` and `DeleteMin` find the heap they are written for. -/
structure Unharmed (globals : Globals) : Prop where
  natural : 0 ≤ globals.heapSize
  guarded : globals.heap 0 = sentinel
  ordered : ∀ position, 2 ≤ position → position ≤ globals.heapSize →
    globals.heap (position.tdiv 2) ≤ globals.heap position

/-- The heap is unharmed, and after each of the calls that return. -/
def StaysUnharmed : Globals → List (Request ℤ) → Prop
  | globals, [] => Unharmed globals
  | globals, call :: calls => Unharmed globals ∧
      ∀ fuel answer after, serve fuel call globals = some (answer, after) →
        StaysUnharmed after calls

/-- Each deletion finds an element, as long as the insertions before it return. -/
def FindsElements : ℕ → List (Request ℤ) → Prop
  | _, [] => True
  | size, .insert element :: calls => sentinel ≤ element → FindsElements (size + 1) calls
  | size, .deleteMin :: calls => 1 ≤ size ∧ FindsElements (size - 1) calls

/-! ## Reachable heaps -/

/-- A heap whose elements are not below its sentinel. -/
structure Bounded (globals : Globals) (size : ℕ) : Prop where
  valid : Valid globals size
  elements : ∀ element ∈ held globals, sentinel ≤ element

section Bounded

variable {globals after : Globals} {size fuel more : ℕ} {element : ℤ} {call : Request ℤ}
  {answer : Option ℤ}

theorem Bounded.tree_ge (bounded : Bounded globals size) {position : ℕ}
    (inside : position ≤ size) : sentinel ≤ tree globals.heap position := by
  rcases Nat.eq_zero_or_pos position with rfl | positive
  · exact bounded.valid.guarded.ge
  · apply bounded.elements
    rw [bounded.valid.held_eq, mem_contents]
    exact ⟨position, positive, inside, rfl⟩

theorem insert_eq_some_iff :
    insert fuel element globals = some after ↔
      ∃ last, loop (insertPass element) fuel (insertStart element globals) = some last ∧
        { heap := last.fill element, heapSize := globals.heapSize + 1 } = after := by
  simp only [insert, insertStart, Option.bind_eq_bind, Option.bind_eq_some_iff,
    Option.some.injEq]

theorem deleteMin_eq_some_iff {least : ℤ} :
    deleteMin fuel globals = some (least, after) ↔
      ∃ last, loop (deleteMinPass (globals.heapSize - 1) (globals.heap globals.heapSize)) fuel
          { heap := globals.heap, now := 1 } = some last ∧
        globals.heap 1 = least ∧
        { heap := last.fill (globals.heap globals.heapSize), heapSize := globals.heapSize - 1 } =
          after := by
  simp only [deleteMin, Option.bind_eq_bind, Option.bind_eq_some_iff, Option.some.injEq,
    Prod.mk.injEq]

theorem serve_unique {other : Option ℤ × Globals} {first : Option ℤ × Globals}
    (left : serve fuel call globals = some first) (right : serve more call globals = some other) :
    first = other := by
  cases call with
  | insert element =>
      simp only [serve, Option.map_eq_some_iff, insert_eq_some_iff] at left right
      rcases left with ⟨_, ⟨last, runs, rfl⟩, rfl⟩
      rcases right with ⟨_, ⟨otherLast, otherRuns, rfl⟩, rfl⟩
      rw [loop_unique runs otherRuns]
  | deleteMin =>
      simp only [serve, Option.map_eq_some_iff, Prod.exists, deleteMin_eq_some_iff] at left right
      rcases left with ⟨_, _, ⟨last, runs, rfl, rfl⟩, rfl⟩
      rcases right with ⟨_, _, ⟨otherLast, otherRuns, rfl, rfl⟩, rfl⟩
      rw [loop_unique runs otherRuns]

/-- The loop of `Insert` climbs from cell to cell, and at last from `heap[0]` to itself. -/
theorem Bounded.insertPass_none (bounded : Bounded globals size) (below : element < sentinel)
    (fuel : ℕ) : loop (insertPass element) fuel (insertStart element globals) = none := by
  apply loop_eq_none (fun sift : Sift => ∃ hole : ℕ, sift.now = hole ∧
    ∀ position ≤ hole / 2, element < tree sift.heap position)
  · rintro sift ⟨hole, now, above⟩
    refine ⟨sift.move (hole / 2 : ℕ), ?_, hole / 2, rfl, ?_⟩
    · rw [insertPass_eq now, if_pos (above (hole / 2) le_rfl)]
    · intro position position_le
      simp only [Sift.move, Sift.fill, now, tree_update]
      rcases eq_or_ne position hole with rfl | other
      · rw [Function.update_self]
        exact above (position / 2) le_rfl
      · rw [Function.update_of_ne other]
        exact above position (by omega)
  · refine ⟨size + 1, ?_, ?_⟩
    · simp only [insertStart, bounded.valid.heapSize]
      rfl
    · intro position position_le
      have last : globals.heapSize + 1 = (size + 1 : ℕ) := by
        rw [bounded.valid.heapSize]
        rfl
      simp only [insertStart, last, tree_update]
      rw [Function.update_of_ne (by omega)]
      exact below.trans_le (bounded.tree_ge (by omega))

/-- A call that returns has inserted no element below the sentinel, and leaves none. -/
theorem Bounded.serve (bounded : Bounded globals size)
    (permitted : call = .deleteMin → 1 ≤ size)
    (served : serve fuel call globals = some (answer, after)) :
    Bounded after (sizeAfter size call) ∧
      ∀ element, call = .insert element → sentinel ≤ element := by
  cases call with
  | insert element =>
      rcases lt_or_ge element sentinel with below | legal
      · simp only [Heap.serve, Option.map_eq_some_iff, insert_eq_some_iff,
          bounded.insertPass_none below] at served
        rcases served with ⟨_, ⟨_, diverges, _⟩, _⟩
        cases diverges
      · rcases insert_valid bounded.valid legal (Nat.lt_succ_self (size + 1)) with
          ⟨expected, runs, valid, elements⟩
        have returns : Heap.serve (size + 1 + 1) (.insert element) globals =
            some (none, expected) := by
          simp only [Heap.serve, runs, Option.map_some]
        cases serve_unique served returns
        refine ⟨⟨valid, ?_⟩, ?_⟩
        · rw [elements]
          exact Multiset.forall_mem_cons.mpr ⟨legal, bounded.elements⟩
        · rintro _ ⟨⟩
          exact legal
  | deleteMin =>
      obtain ⟨rest, rfl⟩ : ∃ rest, size = rest + 1 := ⟨size - 1, by have := permitted rfl; omega⟩
      rcases deleteMin_valid bounded.valid (Nat.lt_succ_self rest) with
        ⟨least, expected, runs, valid, _, elements⟩
      have returns : Heap.serve (rest + 1) .deleteMin globals = some (some least, expected) := by
        simp only [Heap.serve, runs, Option.map_some]
      cases serve_unique served returns
      refine ⟨⟨valid, ?_⟩, ?_⟩
      · intro element kept
        apply bounded.elements
        rw [← elements]
        exact Multiset.mem_cons_of_mem kept
      · rintro _ ⟨⟩

theorem Reachable.bounded (reachable : Reachable globals) : ∃ size, Bounded globals size := by
  induction reachable with
  | init memory =>
      refine ⟨0, init_valid memory, ?_⟩
      intro element listed
      rw [(init_valid memory).held_eq, contents_zero] at listed
      cases listed
  | serve reachable permitted served ih =>
      rcases ih with ⟨size, bounded⟩
      refine ⟨_, (bounded.serve ?_ served).1⟩
      intro deletes
      have := permitted deletes
      rw [bounded.valid.heapSize] at this
      omega

theorem Bounded.unharmed (bounded : Bounded globals size) : Unharmed globals := by
  constructor
  case natural =>
    rw [bounded.valid.heapSize]
    omega
  case guarded => exact bounded.valid.guarded
  case ordered =>
    intro position two_le inside
    rw [bounded.valid.heapSize] at inside
    lift position to ℕ using by omega
    rw [tdiv_two]
    exact bounded.valid.ordered position (by omega) (by omega)

theorem Bounded.insertEnds (bounded : Bounded globals size) (legal : sentinel ≤ element) :
    InsertEnds element globals := by
  have last : globals.heapSize + 1 = (size + 1 : ℕ) := by
    rw [bounded.valid.heapSize]
    rfl
  have ⟨sifting, climbing⟩ := bounded.valid.insert_sifting element
  rcases insertPass_ends legal sifting climbing (Nat.lt_succ_self (size + 1)) with
    ⟨sift, runs, place, sits, climbed, _⟩
  refine ⟨size + 1 + 1, sift, ?_, ?_, ?_, ?_⟩
  · simpa only [insertStart, last] using runs
  · have positive := sits.positive
    rw [sits.now]
    omega
  · have inside := climbed.inside
    rw [last, sits.now]
    omega
  · rw [sits.guarded, bounded.valid.guarded]

end Bounded

/-- On every reachable heap the loop of `Insert` ends as it should, for every `int` but one. -/
theorem insertEnds_iff (globals : Globals) (element : ℤ) (reachable : Reachable globals)
    (isInt : IsInt element) : InsertEnds element globals ↔ element ≠ intMin := by
  rcases reachable.bounded with ⟨size, bounded⟩
  constructor
  · rintro ⟨fuel, last, runs, _⟩ rfl
    rw [bounded.insertPass_none (by decide)] at runs
    cases runs
  · intro other
    apply bounded.insertEnds
    have least := isInt.1
    simp only [intMin, sentinel, intMax] at least other ⊢
    omega

def zeroMemory : Globals :=
  ⟨fun _ => 0, 0⟩

theorem insertEnds_five : InsertEnds 5 (init zeroMemory) :=
  (insertEnds_iff (init zeroMemory) 5 (.init zeroMemory) (by decide)).mpr (by decide)

theorem insert_intMin_runs_on :
    Reachable (init zeroMemory) ∧ IsInt intMin ∧ ¬ InsertEnds intMin (init zeroMemory) := by
  refine ⟨.init zeroMemory, by decide, ?_⟩
  rintro ⟨fuel, last, runs, _⟩
  rcases (Reachable.init zeroMemory).bounded with ⟨size, bounded⟩
  rw [bounded.insertPass_none (by decide)] at runs
  cases runs

/-! ## Deletions from an empty heap -/

/-- On an empty heap `DeleteMin` returns at once, and stores the sentinel as an element. -/
theorem deleteMin_of_empty {globals : Globals} (empty : globals.heapSize = 0) :
    serve 1 .deleteMin globals = some (some (globals.heap 1),
      { heap := Function.update globals.heap 1 (globals.heap 0), heapSize := -1 }) := by
  simp [serve, deleteMin, loop, deleteMinPass, Sift.fill, empty]

theorem StaysUnharmed.unharmed {globals : Globals} {calls : List (Request ℤ)}
    (stays : StaysUnharmed globals calls) : Unharmed globals := by
  cases calls with
  | nil => exact stays
  | cons => exact stays.1

theorem staysUnharmed_iff_bounded {globals : Globals} {size : ℕ} (bounded : Bounded globals size)
    (calls : List (Request ℤ)) : StaysUnharmed globals calls ↔ FindsElements size calls := by
  induction calls generalizing globals size with
  | nil => exact iff_of_true bounded.unharmed trivial
  | cons call calls ih =>
      cases call with
      | insert element =>
          simp only [StaysUnharmed, FindsElements, bounded.unharmed, true_and]
          constructor
          · intro stays legal
            rcases insert_valid bounded.valid legal (Nat.lt_succ_self (size + 1)) with
              ⟨after, runs, _⟩
            have served : serve (size + 1 + 1) (.insert element) globals = some (none, after) := by
              simp only [serve, runs, Option.map_some]
            have next := (bounded.serve (by simp) served).1
            exact (ih next).mp (stays _ _ _ served)
          · intro finds fuel answer after served
            rcases bounded.serve (by simp) served with ⟨next, legal⟩
            exact (ih next).mpr (finds (legal element rfl))
      | deleteMin =>
          simp only [StaysUnharmed, FindsElements, bounded.unharmed, true_and]
          rcases size with _ | size
          · apply iff_of_false
            · intro stays
              have harmed := stays _ _ _ (deleteMin_of_empty bounded.valid.heapSize)
              have natural : (0 : ℤ) ≤ -1 := harmed.unharmed.natural
              omega
            · simp
          · simp only [Nat.le_add_left, true_and]
            constructor
            · intro stays
              rcases deleteMin_valid bounded.valid (Nat.lt_succ_self size) with
                ⟨least, after, runs, _⟩
              have served : serve (size + 1) .deleteMin globals = some (some least, after) := by
                simp only [serve, runs, Option.map_some]
              exact (ih (bounded.serve (by simp) served).1).mp (stays _ _ _ served)
            · intro finds fuel answer after served
              exact (ih (bounded.serve (by simp) served).1).mpr finds

/-- From a reachable heap on, the size stays natural, the sentinel in place and the heap ordered
exactly if every deletion finds an element. -/
theorem staysUnharmed_iff (globals : Globals) (calls : List (Request ℤ))
    (reachable : Reachable globals) :
    StaysUnharmed globals calls ↔ FindsElements globals.heapSize.toNat calls := by
  rcases reachable.bounded with ⟨size, bounded⟩
  rw [staysUnharmed_iff_bounded bounded, bounded.valid.heapSize, Int.toNat_natCast]

theorem staysUnharmed_two :
    StaysUnharmed (init zeroMemory) [.insert 5, .deleteMin] ↔
      FindsElements (init zeroMemory).heapSize.toNat [.insert 5, .deleteMin] :=
  staysUnharmed_iff (init zeroMemory) [.insert 5, .deleteMin] (.init zeroMemory)

/-- After a deletion from the empty heap the next element takes the place of the sentinel. -/
theorem empty_deletion_harms :
    (∃ first second, serve 1 .deleteMin (init zeroMemory) = some (some 0, first) ∧
      first.heapSize = -1 ∧ serve 1 (.insert 5) first = some (none, second) ∧
      second.heapSize = 0 ∧ second.heap 0 = 5) ∧
      Reachable (init zeroMemory) ∧ ¬ StaysUnharmed (init zeroMemory) [.deleteMin, .insert 5] := by
  refine ⟨⟨_, { heap := Function.update (Function.update (init zeroMemory).heap 1 sentinel) 0 5
                heapSize := 0 },
    deleteMin_of_empty rfl, rfl, ?_, rfl, rfl⟩, .init zeroMemory, ?_⟩
  · simp [serve, insert, loop, insertPass, Sift.fill, init]
  · intro stays
    have harmed := stays.2 _ _ _ (deleteMin_of_empty rfl)
    exact absurd harmed.unharmed.natural (by decide)

end NetLab.Heap
