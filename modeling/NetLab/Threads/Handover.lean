import NetLab.Systems.Runs
import Mathlib.Data.List.Nodup
import Mathlib.Data.List.Perm.Subperm
import Mathlib.Data.Option.Basic
import Mathlib.Order.Lattice

/-!
# Handing a descriptor to a thread

The threaded servers accept into a variable and give `pthread_create` its address:
`nfd=accept(..); pthread_create(&threads[clients_no++],NULL,func,(void *)(&nfd));`. The thread
begins with `int nfd = *((int *)arg);`, and by then the server may have accepted another client.
Descriptors that a thread serves are never closed, so that `accept` gives other ones.
-/

namespace NetLab.Threads

open NetLab.Systems

/-- A server with an array of so many threads, which may close the descriptor instead from some
number of clients on. -/
structure Acceptor where
  threads : ℕ
  maxClients : Option ℕ

/-- `mid/multithreaded/server.c`. -/
def multithreaded : Acceptor where
  threads := 5
  maxClients := none

/-- `mid/mss/server1.c` and `unixsockets/tss/server.c`, which receives its descriptors. -/
def server1 : Acceptor where
  threads := 3
  maxClients := none

/-- `mid/tss/service1.c`. -/
def service1 : Acceptor where
  threads := 3
  maxClients := some 2

def Acceptor.refuses (server : Acceptor) (clients : ℕ) : Bool :=
  server.maxClients.any (· ≤ clients)

/-- The variable, whether its descriptor is still to be handed over, the descriptors for which a
thread was created, and what each of the threads has found in the variable. -/
structure Handover (Descriptor : Type*) where
  nfd : Descriptor
  accepted : Bool
  handed : List Descriptor
  serves : List (Option Descriptor)

inductive Happening (Descriptor : Type*) where
  | accepts (descriptor : Descriptor)
  | creates
  | fetches (thread : ℕ)

/-- The variable holds anything. -/
def Handover.start {Descriptor : Type*} (nfd : Descriptor) : Handover Descriptor where
  nfd
  accepted := false
  handed := []
  serves := []

variable {Descriptor : Type*} [DecidableEq Descriptor]

/-- A thread that has no place in the array is not created. -/
def Acceptor.step (server : Acceptor) (state : Handover Descriptor) :
    Happening Descriptor → Option (Handover Descriptor)
  | .accepts descriptor =>
      if state.accepted = false ∧ descriptor ∉ state.handed then
        some { state with nfd := descriptor, accepted := true }
      else none
  | .creates =>
      if state.accepted = true then
        if server.refuses state.handed.length = true then some { state with accepted := false }
        else if state.handed.length < server.threads then
          some { state with
            accepted := false
            handed := state.handed ++ [state.nfd]
            serves := state.serves ++ [none] }
        else none
      else none
  | .fetches thread =>
      if state.serves[thread]? = some none then
        some { state with serves := state.serves.set thread (some state.nfd) }
      else none

/-- No client is accepted while a thread has its descriptor still to fetch. -/
def Unhurried (state : Handover Descriptor) : Happening Descriptor → Handover Descriptor → Prop
  | .accepts _, _ => none ∉ state.serves
  | _, _ => True

section Steps

variable {server : Acceptor} {state next : Handover Descriptor} {descriptor : Descriptor}
  {thread : ℕ}

theorem step_accepts (taken : server.step state (.accepts descriptor) = some next) :
    state.accepted = false ∧ descriptor ∉ state.handed ∧
      next = { state with nfd := descriptor, accepted := true } := by
  rw [Acceptor.step, Option.ite_none_right_eq_some] at taken
  rcases taken with ⟨⟨idle, fresh⟩, same⟩
  cases same
  exact ⟨idle, fresh, rfl⟩

theorem step_creates (taken : server.step state .creates = some next) :
    state.accepted = true ∧
      (server.refuses state.handed.length = true ∧ next = { state with accepted := false } ∨
        state.handed.length < server.threads ∧ next = { state with
          accepted := false
          handed := state.handed ++ [state.nfd]
          serves := state.serves ++ [none] }) := by
  rw [Acceptor.step, Option.ite_none_right_eq_some] at taken
  rcases taken with ⟨accepted, taken⟩
  refine ⟨accepted, ?_⟩
  split_ifs at taken with refuses room
  · cases taken
    exact Or.inl ⟨refuses, rfl⟩
  · cases taken
    exact Or.inr ⟨room, rfl⟩

theorem step_fetches (taken : server.step state (.fetches thread) = some next) :
    state.serves[thread]? = some none ∧
      next = { state with serves := state.serves.set thread (some state.nfd) } := by
  rw [Acceptor.step, Option.ite_none_right_eq_some] at taken
  rcases taken with ⟨waiting, same⟩
  cases same
  exact ⟨waiting, rfl⟩

/-- An accepted client leads out of the array when there are as many threads already and the
server does not refuse. -/
theorem creates_eq_none_iff (accepted : state.accepted = true) :
    server.step state .creates = none ↔
      server.refuses state.handed.length = false ∧ server.threads ≤ state.handed.length := by
  simp only [Acceptor.step, accepted, if_true]
  split_ifs with refused room
  · simp [refused]
  · simp [room]
  · simpa using And.intro refused room

/-- The services refuse in time, the other servers never. -/
theorem service1_creates (accepted : state.accepted = true) :
    service1.step state .creates ≠ none := by
  rw [ne_eq, creates_eq_none_iff accepted]
  rintro ⟨admitted, full⟩
  have few : state.handed.length < 2 := by
    simpa [Acceptor.refuses, service1] using admitted
  have many : 3 ≤ state.handed.length := full
  omega

theorem server1_creates_iff (accepted : state.accepted = true) :
    server1.step state .creates ≠ none ↔ state.handed.length < 3 := by
  rw [ne_eq, creates_eq_none_iff accepted]
  simp [Acceptor.refuses, server1]

end Steps

/-! ## What every run keeps -/

/-- A thread for each descriptor handed over, all of them different. -/
structure Handover.Accounted (state : Handover Descriptor) : Prop where
  length : state.serves.length = state.handed.length
  nodup : state.handed.Nodup
  fresh : state.accepted = true → state.nfd ∉ state.handed

/-- A descriptor that no thread serves and that is not in the variable any more. -/
def Handover.Lost (state : Handover Descriptor) : Prop :=
  ∃ descriptor ∈ state.handed, descriptor ≠ state.nfd ∧ some descriptor ∉ state.serves

section Invariants

variable {server : Acceptor} {state next : Handover Descriptor} {label : Happening Descriptor}

theorem Handover.Accounted.step (accounted : state.Accounted)
    (taken : server.step state label = some next) : next.Accounted := by
  cases label with
  | accepts descriptor =>
      rcases step_accepts taken with ⟨_, fresh, rfl⟩
      exact ⟨accounted.length, accounted.nodup, fun _ => fresh⟩
  | creates =>
      rcases step_creates taken with ⟨accepted, ⟨_, rfl⟩ | ⟨_, rfl⟩⟩
      · exact ⟨accounted.length, accounted.nodup, fun refused => by cases refused⟩
      · constructor
        case length => simp only [List.length_append, accounted.length, List.length_singleton]
        case nodup =>
          have apart := accounted.fresh accepted
          rw [List.nodup_append_comm, List.singleton_append, List.nodup_cons]
          exact ⟨apart, accounted.nodup⟩
        case fresh => exact fun refused => by cases refused
  | fetches thread =>
      rcases step_fetches taken with ⟨_, rfl⟩
      refine ⟨?_, accounted.nodup, accounted.fresh⟩
      rw [List.length_set]
      exact accounted.length

theorem Handover.Lost.step (lost : state.Lost) (taken : server.step state label = some next) :
    next.Lost := by
  rcases lost with ⟨descriptor, handed, other, unserved⟩
  cases label with
  | accepts accepted =>
      rcases step_accepts taken with ⟨_, fresh, rfl⟩
      refine ⟨descriptor, handed, ?_, unserved⟩
      rintro rfl
      exact fresh handed
  | creates =>
      rcases step_creates taken with ⟨_, ⟨_, rfl⟩ | ⟨_, rfl⟩⟩
      · exact ⟨descriptor, handed, other, unserved⟩
      · refine ⟨descriptor, List.mem_append_left _ handed, other, ?_⟩
        simpa using unserved
  | fetches thread =>
      rcases step_fetches taken with ⟨_, rfl⟩
      refine ⟨descriptor, handed, other, ?_⟩
      intro served
      rcases List.mem_or_eq_of_mem_set served with before | now
      · exact unserved before
      · exact other (Option.some.inj now)

/-- With a thread that serves nobody there is a client whom nobody serves, and another `accept`
takes its descriptor out of the variable. -/
theorem lost_of_hurried (accounted : state.Accounted) {descriptor : Descriptor}
    (taken : server.step state (.accepts descriptor) = some next) (hurried : none ∈ state.serves) :
    next.Lost := by
  rcases step_accepts taken with ⟨_, fresh, rfl⟩
  by_contra kept
  have served : ∀ client ∈ state.handed, some client ∈ state.serves := by
    intro client handed
    by_contra unserved
    refine kept ⟨client, handed, ?_, unserved⟩
    rintro rfl
    exact fresh handed
  have within : none :: state.handed.map some ⊆ state.serves := by
    intro entry listed
    rcases List.mem_cons.mp listed with rfl | handed
    · exact hurried
    · rcases List.mem_map.mp handed with ⟨client, mem, rfl⟩
      exact served client mem
  have distinct : (none :: state.handed.map some).Nodup := by
    rw [List.nodup_cons]
    exact ⟨by simp, accounted.nodup.map (Option.some_injective _)⟩
  have few := (distinct.subperm within).length_le
  rw [List.length_cons, List.length_map, accounted.length] at few
  omega

/-- Every thread serves its own client, the last one perhaps not yet. -/
def Handover.Prompt (state : Handover Descriptor) : Prop :=
  state.serves = state.handed.map some ∨
    state.accepted = false ∧ ∃ earlier, state.handed = earlier ++ [state.nfd] ∧
      state.serves = earlier.map some ++ [none]

theorem Handover.Prompt.step (prompt : state.Prompt) (taken : server.step state label = some next)
    (unhurried : Unhurried state label next) : next.Prompt := by
  cases label with
  | accepts descriptor =>
      rcases step_accepts taken with ⟨_, _, rfl⟩
      rcases prompt with served | ⟨_, earlier, _, last⟩
      · exact Or.inl served
      · rw [Unhurried, last] at unhurried
        simp at unhurried
  | creates =>
      rcases step_creates taken with ⟨accepted, ⟨_, rfl⟩ | ⟨_, rfl⟩⟩
      all_goals rcases prompt with served | ⟨idle, _⟩
      · exact Or.inl served
      · cases accepted.symm.trans idle
      · exact Or.inr ⟨rfl, state.handed, rfl, by rw [served]⟩
      · cases accepted.symm.trans idle
  | fetches thread =>
      rcases step_fetches taken with ⟨waiting, rfl⟩
      rcases prompt with served | ⟨_, earlier, handed, last⟩
      · rw [served, List.getElem?_map] at waiting
        cases found : state.handed[thread]? <;> simp [found] at waiting
      · have place : thread = earlier.length := by
          rw [last] at waiting
          rcases lt_trichotomy thread earlier.length with before | same | after
          · rw [List.getElem?_append_left (by simpa using before)] at waiting
            simp [before] at waiting
          · exact same
          · have past : (earlier.map some ++ [none]).length ≤ thread := by
              simp only [List.length_append, List.length_map, List.length_singleton]
              exact after
            rw [List.getElem?_eq_none past] at waiting
            cases waiting
        refine Or.inl ?_
        simp only [last, handed, place]
        simp

end Invariants

theorem lost_of_run {server : Acceptor} {state final : Handover Descriptor}
    {labels : List (Happening Descriptor)} (accounted : state.Accounted)
    (hurried : ¬ EveryStep server.step Unhurried state labels)
    (reached : run server.step state labels = some final) : final.Lost := by
  induction labels generalizing state with
  | nil => exact absurd everyStep_nil hurried
  | cons label labels ih =>
      rcases run_cons_eq_some.mp reached with ⟨next, taken, rest⟩
      rw [everyStep_cons taken, not_and] at hurried
      by_cases unhurried : Unhurried state label next
      · exact ih (accounted.step taken) (hurried unhurried) rest
      · refine run_invariant Handover.Lost ?_ (fun _ _ _ lost one => lost.step one) rest
        cases label with
        | accepts descriptor =>
            rw [Unhurried, not_not] at unhurried
            exact lost_of_hurried accounted taken unhurried
        | creates | fetches => exact absurd trivial unhurried

/-- Once every thread has fetched a descriptor: when no client was accepted while a thread had
still to fetch, each thread serves the client it was created for; and else there is a client whom
no thread serves. -/
theorem threads_serve_iff (server : Acceptor) {nfd : Descriptor}
    {labels : List (Happening Descriptor)} {final : Handover Descriptor}
    (reached : run server.step (Handover.start nfd) labels = some final)
    (fetched : none ∉ final.serves) :
    (EveryStep server.step Unhurried (Handover.start nfd) labels →
      final.serves = final.handed.map some) ∧
    (¬ EveryStep server.step Unhurried (Handover.start nfd) labels →
      ∃ descriptor ∈ final.handed, some descriptor ∉ final.serves) := by
  constructor
  case left =>
    intro unhurried
    have prompt := unhurried.invariant Handover.Prompt (Or.inl rfl)
      (fun _ _ _ before taken quiet => before.step taken quiet) reached
    rcases prompt with served | ⟨_, earlier, _, last⟩
    · exact served
    · rw [last] at fetched
      simp at fetched
  case right =>
    intro hurried
    have accounted : (Handover.start nfd).Accounted :=
      ⟨rfl, List.nodup_nil, fun refused => by cases refused⟩
    rcases lost_of_run accounted hurried reached with ⟨descriptor, handed, _, unserved⟩
    exact ⟨descriptor, handed, unserved⟩

/-- A second client before the thread of the first one has begun. -/
def hurry : List (Happening ℕ) :=
  [.accepts 4, .creates, .accepts 5, .fetches 0, .creates, .fetches 1]

theorem hurry_runs : (run multithreaded.step (Handover.start 0) hurry).isSome = true := by
  decide

theorem threads_serve_hurry :
    ∃ final, run multithreaded.step (Handover.start 0) hurry = some final ∧
      ∃ descriptor ∈ final.handed, some descriptor ∉ final.serves := by
  have both := threads_serve_iff multithreaded (Option.some_get hurry_runs).symm (by decide)
  refine ⟨_, (Option.some_get hurry_runs).symm, both.2 ?_⟩
  intro unhurried
  have first := unhurried _ rfl
  have second := first.2 _ rfl
  have third := second.2 _ rfl
  exact third.1 (by decide)

end NetLab.Threads
