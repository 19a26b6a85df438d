import NetLab.Heap.Refinement

/-!
# Runs of the heap

Every legal sequence of calls ends, and each call moves the multiset held as the
abstract queue does. The accounting over a whole run adds up the balance of its
calls.
-/

namespace NetLab.Heap

open NetLab.Imperative NetLab.Structures

instance (size : ℕ) (call : Request ℤ) : Decidable (LegalCall size call) :=
  match call with
  | .insert element => inferInstanceAs (Decidable (sentinel ≤ element ∧ size + 1 < capacity))
  | .deleteMin => inferInstanceAs (Decidable (1 ≤ size))

instance decidableLegal : (size : ℕ) → (calls : List (Request ℤ)) → Decidable (Legal size calls)
  | _, [] => isTrue trivial
  | size, call :: calls =>
      haveI := decidableLegal (sizeAfter size call) calls
      inferInstanceAs (Decidable (LegalCall size call ∧ Legal (sizeAfter size call) calls))

def inserted (events : List Event) : Multiset ℤ :=
  (events.map fun event => event.call.brought).sum

def returned (events : List Event) : Multiset ℤ :=
  (events.map fun event => given event.returned).sum

@[simp]
theorem inserted_cons (event : Event) (events : List Event) :
    inserted (event :: events) = event.call.brought + inserted events := by
  simp [inserted]

@[simp]
theorem returned_cons (event : Event) (events : List Event) :
    returned (event :: events) = given event.returned + returned events := by
  simp [returned]

theorem serve_simulates {globals : Globals} {size : ℕ} (valid : Valid globals size)
    {call : Request ℤ} (legal : LegalCall size call) {fuel : ℕ} (enough : size + 1 < fuel) :
    ∃ answer after, serve fuel call globals = some (answer, after) ∧
      Valid after (sizeAfter size call) ∧ Serves (held globals) call answer (held after) := by
  cases call with
  | insert element =>
      rcases insert_valid valid legal.1 enough with ⟨after, runs, after_valid, after_held⟩
      refine ⟨none, after, ?_, after_valid, ?_⟩
      · simp [serve, runs]
      · rw [after_held]
        exact .insert _ element
  | deleteMin =>
      rcases size with _ | size
      · cases legal
      · rcases deleteMin_valid valid (by omega : size < fuel) with
          ⟨least, after, runs, after_valid, minimum, after_held⟩
        refine ⟨some least, after, ?_, after_valid, ?_⟩
        · simp [serve, runs]
        · rw [← after_held] at minimum ⊢
          exact .deleteMin _ least minimum

/-- What a run shows after one of its calls, given what was held before the run. -/
structure Accounted (bag : Multiset ℤ) (earlier : List Event) (event : Event) : Prop where
  valid : Valid event.after (held event.after).card
  serves : Serves (held event.before) event.call event.returned (held event.after)
  balance : held event.after + returned (earlier ++ [event]) =
    bag + inserted (earlier ++ [event])

theorem Accounted.first {bag : Multiset ℤ} {size : ℕ} {event : Event}
    (held_before : held event.before = bag) (valid : Valid event.after size)
    (serves : Serves (held event.before) event.call event.returned (held event.after)) :
    Accounted bag [] event := by
  constructor
  case valid => simpa only [valid.card_held] using valid
  case serves => exact serves
  case balance => simpa [inserted, returned, ← held_before] using serves.balance

/-- What holds of the rest of a run holds of the whole, with the first call added to the books. -/
theorem Accounted.cons {bag next : Multiset ℤ} {first event : Event} {earlier : List Event}
    (serves : Serves bag first.call first.returned next) (rest : Accounted next earlier event) :
    Accounted bag (first :: earlier) event := by
  constructor
  case valid => exact rest.valid
  case serves => exact rest.serves
  case balance =>
    simp only [List.cons_append, returned_cons, inserted_cons]
    calc held event.after + (given first.returned + returned (earlier ++ [event]))
        = held event.after + returned (earlier ++ [event]) + given first.returned := by
          rw [add_assoc, add_comm (given first.returned)]
      _ = next + given first.returned + inserted (earlier ++ [event]) := by
          rw [rest.balance, add_right_comm]
      _ = bag + (first.call.brought + inserted (earlier ++ [event])) := by
          rw [serves.balance, add_assoc]

theorem run_accounted {fuel : ℕ} {calls : List (Request ℤ)} :
    ∀ {globals : Globals} {size : ℕ}, Valid globals size → Legal size calls →
      size + calls.length < fuel →
      ∃ events, run fuel globals calls = some events ∧ events.map Event.call = calls ∧
        ∀ earlier event later, events = earlier ++ event :: later →
          Accounted (held globals) earlier event := by
  induction calls with
  | nil =>
      intro globals size _ _ _
      refine ⟨[], rfl, rfl, ?_⟩
      intro earlier event later split
      simp at split
  | cons call calls ih =>
      rintro globals size valid ⟨legal, legal_rest⟩ enough
      simp only [List.length_cons] at enough
      rcases serve_simulates valid legal (by omega : size + 1 < fuel) with
        ⟨answer, after, serves_call, after_valid, serves⟩
      have size_le : sizeAfter size call ≤ size + 1 := by
        cases call with
        | insert element => exact le_rfl
        | deleteMin => exact (Nat.pred_le size).trans (Nat.le_succ size)
      rcases ih after_valid legal_rest (by omega) with ⟨events, runs, same_calls, accounted⟩
      refine ⟨{ before := globals, call, returned := answer, after } :: events, ?_, ?_, ?_⟩
      · simp [run, serves_call, runs]
      · simp [same_calls]
      · intro earlier event later split
        rcases earlier with _ | ⟨first, earlier⟩
        · cases split
          exact Accounted.first rfl after_valid serves
        · cases split
          exact (accounted earlier event later rfl).cons serves

/-- What a user of the heap sees after `event`, the call that follows `earlier`: the order and the
sentinel, the elements inserted less the ones returned, and the minimum as the answer of a
deletion. -/
structure ActsAsQueue (earlier : List Event) (event : Event) : Prop where
  heapOrdered : ∀ position, 2 ≤ position → position ≤ event.after.heapSize →
    event.after.heap (position.tdiv 2) ≤ event.after.heap position
  guarded : event.after.heap 0 = sentinel
  enough : returned (earlier ++ [event]) ≤ inserted (earlier ++ [event])
  elements : held event.after = inserted (earlier ++ [event]) - returned (earlier ++ [event])
  minimum : event.call = .deleteMin →
    ∃ least, event.returned = some least ∧ IsMinimum least (held event.before)

theorem Accounted.actsAsQueue {earlier : List Event} {event : Event}
    (accounted : Accounted 0 earlier event) : ActsAsQueue earlier event := by
  have ⟨valid, serves, balance⟩ := accounted
  rw [zero_add] at balance
  constructor
  case heapOrdered =>
    intro position two_le inside
    rw [valid.heapSize] at inside
    lift position to ℕ using by omega
    rw [tdiv_two]
    exact valid.ordered position (by omega) (by omega)
  case guarded => exact valid.guarded
  case enough =>
    rw [← balance]
    exact Multiset.le_add_left _ _
  case elements =>
    rw [← balance, Multiset.add_sub_cancel_right]
  case minimum =>
    intro deletes
    rw [deletes] at serves
    exact serves.answers_minimum

/-- The heap implements a priority queue: after `Init`, every legal sequence of calls ends, with
the guarded heap and the promised elements after each call. -/
theorem run_actsAsQueue (memory : Globals) {calls : List (Request ℤ)} (legal : Legal 0 calls)
    {fuel : ℕ} (enough : calls.length < fuel) :
    ∃ events, run fuel (init memory) calls = some events ∧ events.map Event.call = calls ∧
      ∀ earlier event later, events = earlier ++ event :: later → ActsAsQueue earlier event := by
  rcases run_accounted (init_valid memory) legal (by simpa using enough) with
    ⟨events, runs, same_calls, accounted⟩
  refine ⟨events, runs, same_calls, ?_⟩
  intro earlier event later split
  have empty : held (init memory) = 0 := contents_zero _
  apply Accounted.actsAsQueue
  rw [← empty]
  exact accounted earlier event later split

theorem run_actsAsQueue_three :
    ∃ events, run 4 (init ⟨fun _ => 0, 0⟩) [.insert 5, .deleteMin, .insert (-7)] = some events ∧
      events.map Event.call = [.insert 5, .deleteMin, .insert (-7)] ∧
      ∀ earlier event later, events = earlier ++ event :: later → ActsAsQueue earlier event :=
  run_actsAsQueue ⟨fun _ => 0, 0⟩ (by decide) (by decide)

end NetLab.Heap
