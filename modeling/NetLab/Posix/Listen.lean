import Mathlib.Data.Finset.Basic
import Mathlib.Logic.Function.Basic

/-!
# Accepting connections

Listening sockets with the connections that wait on them, and the set in which `select`
has reported some. A call of `accept` takes a connection, or waits if there is none. A
server that takes a socket out of the set whenever it accepts on it calls `accept` once
for each connection (`Clearing`).
-/

namespace NetLab.Posix

universe u

/-- The sockets of a server that goes through a set of them. It is `waiting` in an `accept` for
which there was no connection. -/
structure Listening (Connection : Type u) where
  readset : Finset ℕ
  pending : ℕ → List Connection
  calls : List ℕ
  accepted : List Connection
  waiting : Bool

namespace Listening

variable {Connection : Type u}

/-- `select` has reported the sockets that have a connection, which is one for each. -/
def start (ready : Finset ℕ) (connection : ℕ → Connection) : Listening Connection where
  readset := ready
  pending fd := if fd ∈ ready then [connection fd] else []
  calls := []
  accepted := []
  waiting := false

def accept (fd : ℕ) (state : Listening Connection) : Listening Connection :=
  match state.pending fd with
  | [] => { state with calls := state.calls ++ [fd], waiting := true }
  | connection :: rest =>
      { state with
        pending := Function.update state.pending fd rest
        calls := state.calls ++ [fd]
        accepted := state.accepted ++ [connection] }

/-- `FD_CLR(fd, &readset)`. -/
def clear (fd : ℕ) (state : Listening Connection) : Listening Connection :=
  { state with readset := state.readset.erase fd }

/-- `accept` was called once on each socket that was ready, on no other one, and never without a
connection. -/
structure AcceptedOnce (ready : Finset ℕ) (state : Listening Connection) : Prop where
  calls : ∀ fd, state.calls.count fd = if fd ∈ ready then 1 else 0
  waiting : state.waiting = false

/-- The sockets in the set are those that were ready and have not been accepted on. -/
structure Clearing (ready : Finset ℕ) (state : Listening Connection) : Prop where
  within : state.readset ⊆ ready
  pending : ∀ fd, (state.pending fd).length = if fd ∈ state.readset then 1 else 0
  calls : ∀ fd, state.calls.count fd = if fd ∈ ready \ state.readset then 1 else 0
  waiting : state.waiting = false

variable {ready : Finset ℕ} {state : Listening Connection} {fd : ℕ}

theorem accept_of_pending {connection : Connection} {rest : List Connection}
    (found : state.pending fd = connection :: rest) :
    state.accept fd = { state with
      pending := Function.update state.pending fd rest
      calls := state.calls ++ [fd]
      accepted := state.accepted ++ [connection] } := by
  rw [accept, found]

theorem accept_of_none (none : state.pending fd = []) :
    state.accept fd = { state with calls := state.calls ++ [fd], waiting := true } := by
  rw [accept, none]

@[simp]
theorem readset_accept (fd : ℕ) (state : Listening Connection) :
    (state.accept fd).readset = state.readset := by
  rw [accept]
  split <;> rfl

@[simp]
theorem readset_clear (fd : ℕ) (state : Listening Connection) :
    (state.clear fd).readset = state.readset.erase fd :=
  rfl

theorem clearing_start (ready : Finset ℕ) (connection : ℕ → Connection) :
    Clearing ready (start ready connection) := by
  constructor
  case within => exact Finset.Subset.refl ready
  case pending =>
    intro fd
    by_cases among : fd ∈ ready <;> simp [start, among]
  case calls =>
    intro fd
    simp [start]
  case waiting => rfl

theorem count_append_singleton (calls : List ℕ) (fd other : ℕ) :
    (calls ++ [fd]).count other = calls.count other + if fd = other then 1 else 0 := by
  rw [List.count_append, List.count_singleton]
  simp only [beq_iff_eq]

namespace Clearing

variable (clearing : Clearing ready state)
include clearing

theorem exists_pending (reported : fd ∈ state.readset) :
    ∃ connection, state.pending fd = [connection] := by
  have one := clearing.pending fd
  rw [if_pos reported] at one
  exact List.length_eq_one_iff.mp one

/-- A socket that is accepted on and taken out of the set. -/
theorem acceptClear (reported : fd ∈ state.readset) :
    Clearing ready ((state.accept fd).clear fd) := by
  rcases clearing.exists_pending reported with ⟨connection, found⟩
  rw [accept_of_pending found]
  constructor
  case within => exact (Finset.erase_subset _ _).trans clearing.within
  case pending =>
    intro other
    simp only [clear, Finset.mem_erase]
    rcases eq_or_ne other fd with rfl | apart
    · simp
    · rw [Function.update_of_ne apart, clearing.pending other]
      simp [apart]
  case calls =>
    intro other
    simp only [clear, count_append_singleton, clearing.calls other, Finset.mem_sdiff,
      Finset.mem_erase]
    rcases eq_or_ne other fd with rfl | apart
    · simp [reported, clearing.within reported]
    · simp [apart, apart.symm]
  case waiting => exact clearing.waiting

/-- Each connection is accepted when the set is empty, and not before. -/
theorem acceptedOnce_iff : AcceptedOnce ready state ↔ state.readset = ∅ := by
  constructor
  · intro once
    apply Finset.eq_empty_of_forall_notMem
    intro fd reported
    have called := once.calls fd
    rw [clearing.calls fd, if_pos (clearing.within reported),
      if_neg fun left => (Finset.mem_sdiff.mp left).2 reported] at called
    cases called
  · intro empty
    constructor
    case calls =>
      intro fd
      rw [clearing.calls fd, empty, Finset.sdiff_empty]
    case waiting => exact clearing.waiting

end Clearing

end Listening

end NetLab.Posix
