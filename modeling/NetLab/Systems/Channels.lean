import Mathlib.Algebra.BigOperators.Group.Finset.Piecewise
import Mathlib.Data.Fintype.BigOperators

/-!
# Items in queues

A system keeps its items in finitely many queues, such as channels with messages
under way and lists of what a process holds. The number of times an item occurs
in all of them changes only by what a step puts in or takes out.
-/

namespace NetLab.Systems

variable {ι α : Type*} [Fintype ι] [DecidableEq ι] [DecidableEq α]

/-- How often an item occurs in a family of queues. -/
def occurrences (queues : ι → List α) (item : α) : ℕ :=
  ∑ place, (queues place).count item

theorem occurrences_update (queues : ι → List α) (place : ι) (queue : List α) (item : α) :
    occurrences (Function.update queues place queue) item + (queues place).count item =
      occurrences queues item + queue.count item := by
  have elsewhere : ∀ other ∈ Finset.univ.erase place,
      (Function.update queues place queue other).count item = (queues other).count item := by
    intro other inside
    rw [Function.update_of_ne (Finset.ne_of_mem_erase inside)]
  have before := Finset.add_sum_erase Finset.univ
    (fun other => (queues other).count item) (Finset.mem_univ place)
  have after := Finset.add_sum_erase Finset.univ
    (fun other => (Function.update queues place queue other).count item) (Finset.mem_univ place)
  rw [Finset.sum_congr rfl elsewhere, Function.update_self] at after
  simp only [occurrences]
  omega

theorem occurrences_push (queues : ι → List α) (place : ι) (added item : α) :
    occurrences (Function.update queues place (queues place ++ [added])) item =
      occurrences queues item + [added].count item := by
  have counted := occurrences_update queues place (queues place ++ [added]) item
  rw [List.count_append] at counted
  omega

end NetLab.Systems
