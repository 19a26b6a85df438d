import Mathlib.Algebra.Order.Group.Multiset
import Mathlib.Order.Bounds.Basic

/-!
# Priority queues

What a priority queue is for, without saying how it is stored: a multiset that
takes elements in and gives its least one back. A store refines it when each
request moves the multiset it holds by `Serves`.
-/

namespace NetLab.Structures

universe u

inductive Request (α : Type u) where
  | insert (element : α)
  | deleteMin
deriving DecidableEq, Repr

namespace Request

variable {α : Type u}

def brought : Request α → Multiset α
  | insert element => {element}
  | deleteMin => 0

end Request

section Serves

variable {α : Type u} [LinearOrder α]

/-- The element is in the multiset and no other one there is below it. -/
def IsMinimum (least : α) (bag : Multiset α) : Prop :=
  least ∈ bag ∧ ∀ other ∈ bag, least ≤ other

/-- One request on a queue holding `bag`: what it answers and what is held afterwards. -/
inductive Serves : Multiset α → Request α → Option α → Multiset α → Prop
  | insert (bag : Multiset α) (element : α) :
      Serves bag (.insert element) none (element ::ₘ bag)
  | deleteMin (bag : Multiset α) (least : α) (minimum : IsMinimum least (least ::ₘ bag)) :
      Serves (least ::ₘ bag) .deleteMin (some least) bag

def given : Option α → Multiset α
  | none => 0
  | some element => {element}

theorem Serves.balance {bag next : Multiset α} {request : Request α} {answer : Option α}
    (serves : Serves bag request answer next) :
    next + given answer = bag + request.brought := by
  cases serves with
  | insert _ element => simp [given, Request.brought, ← Multiset.singleton_add, add_comm]
  | deleteMin _ least _ => simp [given, Request.brought, ← Multiset.singleton_add, add_comm]

theorem Serves.answers_minimum {bag next : Multiset α} {answer : Option α}
    (serves : Serves bag .deleteMin answer next) :
    ∃ least, answer = some least ∧ IsMinimum least bag := by
  cases serves with
  | deleteMin _ least minimum => exact ⟨least, rfl, minimum⟩

end Serves

end NetLab.Structures
