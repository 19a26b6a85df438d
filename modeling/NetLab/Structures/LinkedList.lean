import Mathlib.Data.List.Nodup
import Mathlib.Logic.Function.Basic

/-!
# Linked lists in a heap

A heap holds nodes at some of its addresses, and a node may point to another one. The nodes from one
pointer up to another, in the order of the pointers, are a segment; a list is a segment up to the
null pointer.
-/

namespace NetLab.Structures

/-- What a node holds and the pointer to the next one, which may be null. -/
structure Node (Address Value : Type*) where
  value : Value
  next : Option Address

abbrev Heap (Address Value : Type*) :=
  Address → Option (Node Address Value)

/-- The nodes met from `start` on up to `stop`, with their addresses. -/
inductive Segment {Address Value : Type*} (heap : Heap Address Value) :
    Option Address → List (Address × Value) → Option Address → Prop where
  | nil (stop : Option Address) : Segment heap stop [] stop
  | cons {address : Address} {value : Value} {next stop : Option Address}
      {cells : List (Address × Value)} (here : heap address = some { value, next })
      (rest : Segment heap next cells stop) :
      Segment heap (some address) ((address, value) :: cells) stop

section Segment

variable {Address Value : Type*} {heap : Heap Address Value} {start middle stop : Option Address}
  {cells later : List (Address × Value)} {address : Address} {value : Value}

theorem Segment.append (first : Segment heap start cells middle)
    (second : Segment heap middle later stop) : Segment heap start (cells ++ later) stop := by
  induction first with
  | nil => exact second
  | cons here _ ih => exact .cons here (ih second)

theorem Segment.split (whole : Segment heap start (cells ++ later) stop) :
    ∃ middle, Segment heap start cells middle ∧ Segment heap middle later stop := by
  induction cells generalizing start with
  | nil => exact ⟨start, .nil start, whole⟩
  | cons cell cells ih =>
      cases whole with
      | cons here rest =>
          rcases ih rest with ⟨middle, first, second⟩
          exact ⟨middle, .cons here first, second⟩

theorem segment_single_iff : Segment heap start [(address, value)] stop ↔
    start = some address ∧ heap address = some { value, next := stop } := by
  constructor
  case mp =>
    intro single
    cases single with
    | cons here rest =>
        cases rest
        exact ⟨rfl, here⟩
  case mpr =>
    rintro ⟨rfl, here⟩
    exact .cons here (.nil stop)

theorem Segment.node_of_mem (segment : Segment heap start cells stop)
    (mem : (address, value) ∈ cells) : ∃ next, heap address = some { value, next } := by
  induction segment with
  | nil => cases mem
  | cons here _ ih =>
      rcases List.mem_cons.mp mem with same | later
      · cases same
        exact ⟨_, here⟩
      · exact ih later

/-- What is met from a pointer on up to the null pointer is determined. -/
theorem Segment.unique {others : List (Address × Value)} (list : Segment heap start cells none)
    (other : Segment heap start others none) : cells = others := by
  induction cells generalizing start others with
  | nil =>
      cases list
      cases other
      rfl
  | cons cell cells ih =>
      cases list with
      | cons here rest =>
          cases other with
          | cons there rest' =>
              cases here.symm.trans there
              rw [ih rest rest']

/-- The nodes of a list are at different addresses: a pointer back would never come to an end. -/
theorem Segment.nodup (list : Segment heap start cells none) : (cells.map Prod.fst).Nodup := by
  induction cells generalizing start with
  | nil => exact List.nodup_nil
  | cons cell cells ih =>
      have whole := list
      cases list with
      | cons here rest =>
          rw [List.map_cons, List.nodup_cons]
          refine ⟨?_, ih rest⟩
          intro again
          rcases List.mem_map.mp again with ⟨⟨repeated, held⟩, mem, at_first⟩
          rcases List.append_of_mem mem with ⟨before, after, rfl⟩
          rcases rest.split with ⟨middle, _, back⟩
          have at_start : middle = some repeated := by
            cases back
            rfl
          rw [at_start] at back
          cases at_first
          have same := congrArg List.length (whole.unique back)
          simp only [List.length_cons, List.length_append] at same
          omega

variable [DecidableEq Address]

/-- A segment does not change with what is at another address. -/
theorem Segment.frame {node : Option (Node Address Value)} (segment : Segment heap start cells stop)
    (apart : address ∉ cells.map Prod.fst) :
    Segment (Function.update heap address node) start cells stop := by
  induction segment with
  | nil stop => exact .nil stop
  | cons here _ ih =>
      simp only [List.map_cons, List.mem_cons, not_or] at apart
      refine .cons ?_ (ih apart.2)
      rw [Function.update_of_ne (Ne.symm apart.1)]
      exact here

/-- The last node of a list comes to point to a new node. -/
theorem Segment.extend {last fresh : Address} {lastValue : Value}
    (list : Segment heap start (cells ++ [(last, lastValue)]) none) (free : heap fresh = none) :
    Segment
      (Function.update (Function.update heap fresh (some { value, next := none })) last
        (some { value := lastValue, next := some fresh }))
      start (cells ++ [(last, lastValue)] ++ [(fresh, value)]) none := by
  have distinct := list.nodup
  have unused : fresh ∉ (cells ++ [(last, lastValue)]).map Prod.fst := by
    intro used
    rcases List.mem_map.mp used with ⟨⟨_, held⟩, mem, rfl⟩
    rcases list.node_of_mem mem with ⟨next, there⟩
    cases free.symm.trans there
  rw [List.map_append, List.map_singleton] at distinct unused
  rw [List.nodup_append_comm, List.singleton_append, List.nodup_cons] at distinct
  rw [List.mem_append, not_or, List.mem_singleton] at unused
  rcases list.split with ⟨middle, front, back⟩
  rcases segment_single_iff.mp back with ⟨rfl, _⟩
  rw [List.append_assoc, List.singleton_append]
  refine ((front.frame unused.1).frame distinct.1).append (.cons (Function.update_self _ _ _) ?_)
  rw [segment_single_iff, Function.update_of_ne unused.2]
  exact ⟨rfl, Function.update_self _ _ _⟩

end Segment

end NetLab.Structures
