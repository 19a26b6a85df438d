import NetLab.Imperative.Loop
import NetLab.Mss.Registry
import NetLab.Posix.Listen

/-!
# The loop of the `mss` server over its sockets

After `select` the server runs through the numbers up to `max_fd` and looks at the same
two sockets each time: at the one for services, which it takes out of the set when it
has accepted on it, and else at the one for clients, which it leaves in. The server of
`ss` goes through its sockets in each round, and takes out all of them.
-/

namespace NetLab.Mss

open NetLab.Imperative NetLab.Posix

structure Sockets where
  ssfd : ℕ
  csfd : ℕ

/-- The `max_fd` that `rep` computes. -/
def Sockets.maxFd (sockets : Sockets) : ℕ :=
  if sockets.ssfd > sockets.csfd then sockets.ssfd else sockets.csfd

/-- The body of the inner loop. A server that waits in `accept` does not go on. The events are what
the registry is given to serve. -/
def Sockets.serve (sockets : Sockets) (state : Listening Event) : Listening Event :=
  if state.waiting then state
  else if sockets.ssfd ∈ state.readset then (state.accept sockets.ssfd).clear sockets.ssfd
  else if sockets.csfd ∈ state.readset then state.accept sockets.csfd
  else state

/-- The inner loop, when `select` has reported the sockets in the set. -/
def Sockets.acceptLoop (sockets : Sockets) (maxFd : ℕ) (state : Listening Event) :
    Listening Event :=
  forUp 0 (maxFd + 1) (fun _ => sockets.serve) state

section Clients

variable {sockets : Sockets} {ready : Finset ℕ} {state : Listening Event} {first last : ℕ}

theorem forUp_serve_of_idle (services : sockets.ssfd ∉ state.readset)
    (clients : sockets.csfd ∉ state.readset) :
    forUp first last (fun _ => sockets.serve) state = state := by
  rcases Nat.le_total last first with empty | le
  · exact forUp_of_le empty _ _
  · apply forUp_induction (fun _ current => current = state) le rfl
    rintro _ _ _ _ rfl
    rw [Sockets.serve, if_neg services, if_neg clients, ite_self]

theorem forUp_serve_waiting (waiting : state.waiting = true) (le : first ≤ last) :
    (forUp first last (fun _ => sockets.serve) state).waiting = true := by
  apply forUp_induction (fun _ (current : Listening Event) => current.waiting = true) le waiting
  intro _ current _ _ held
  rwa [Sockets.serve, if_pos held]

theorem serve_services (services : sockets.ssfd ∈ state.readset) (going : state.waiting = false) :
    sockets.serve state = (state.accept sockets.ssfd).clear sockets.ssfd := by
  rw [Sockets.serve, if_neg (by simp [going]), if_pos services]

theorem serve_clients (services : sockets.ssfd ∉ state.readset)
    (clients : sockets.csfd ∈ state.readset) (going : state.waiting = false) :
    sockets.serve state = state.accept sockets.csfd := by
  rw [Sockets.serve, if_neg (by simp [going]), if_neg services, if_pos clients]

/-- With the clients' socket alone in the set, the loop accepts once if it has one round to go, and
waits in its second round. -/
theorem acceptedOnce_clients_iff (clearing : Listening.Clearing ready state)
    (only : state.readset = {sockets.csfd}) (services : sockets.ssfd ≠ sockets.csfd)
    (le : first ≤ last) :
    Listening.AcceptedOnce ready (forUp first last (fun _ => sockets.serve) state) ↔
      last = first + 1 := by
  have clients : sockets.csfd ∈ state.readset := by
    rw [only]
    exact Finset.mem_singleton_self _
  have absent : sockets.ssfd ∉ state.readset := by
    rw [only, Finset.mem_singleton]
    exact services
  rcases clearing.exists_pending clients with ⟨connection, found⟩
  have once := Listening.accept_of_pending found
  rcases Nat.eq_or_lt_of_le le with rfl | more
  · rw [forUp_of_le le_rfl, clearing.acceptedOnce_iff, only]
    simp
  · rw [forUp_first more, serve_clients absent clients clearing.waiting]
    rcases Nat.eq_or_lt_of_le (Nat.succ_le_of_lt more) with rfl | further
    · rw [forUp_of_le le_rfl]
      refine iff_of_true ?_ rfl
      constructor
      case calls =>
        intro fd
        rw [once]
        simp only [Listening.count_append_singleton, clearing.calls fd, Finset.mem_sdiff, only,
          Finset.mem_singleton]
        rcases eq_or_ne fd sockets.csfd with rfl | apart
        · simp [clearing.within clients]
        · simp [apart, apart.symm]
      case waiting =>
        rw [once]
        exact clearing.waiting
    · have again : sockets.serve (state.accept sockets.csfd) =
          (state.accept sockets.csfd).accept sockets.csfd := by
        apply serve_clients <;> rw [once]
        · exact absent
        · exact clients
        · exact clearing.waiting
      have taken : (state.accept sockets.csfd).pending sockets.csfd = [] := by
        rw [once]
        exact Function.update_self _ _ _
      have waiting : ((state.accept sockets.csfd).accept sockets.csfd).waiting = true := by
        rw [Listening.accept_of_none taken]
      rw [forUp_first further, again]
      apply iff_of_false
      · intro accepted
        have held := @forUp_serve_waiting sockets _ (first + 1 + 1) last waiting further
        rw [accepted.waiting] at held
        cases held
      · omega

/-- Rounds in which the socket for services is not in the set. -/
theorem acceptedOnce_rounds_iff (clearing : Listening.Clearing ready state)
    (within : state.readset ⊆ {sockets.csfd}) (apart : sockets.ssfd ≠ sockets.csfd)
    (le : first ≤ last) :
    Listening.AcceptedOnce ready (forUp first last (fun _ => sockets.serve) state) ↔
      sockets.csfd ∉ state.readset ∨ last = first + 1 := by
  rcases Finset.subset_singleton_iff.mp within with empty | only
  · have idle : ∀ fd, fd ∉ state.readset := by
      intro fd
      rw [empty]
      exact Finset.notMem_empty fd
    rw [forUp_serve_of_idle (idle _) (idle _), clearing.acceptedOnce_iff]
    exact iff_of_true empty (Or.inl (idle _))
  · rw [acceptedOnce_clients_iff clearing only apart le, only]
    simp

end Clients

/-- The loop accepts once on each socket that is ready, and never without a connection, exactly when
the clients' socket is not ready, or when there is one round for it: the only one, or the second
of two. -/
theorem acceptLoop_acceptedOnce_iff (sockets : Sockets) (maxFd : ℕ) (ready : Finset ℕ)
    (connection : ℕ → Event) (apart : sockets.ssfd ≠ sockets.csfd)
    (among : ready ⊆ {sockets.ssfd, sockets.csfd}) :
    Listening.AcceptedOnce ready
        (sockets.acceptLoop maxFd (Listening.start ready connection)) ↔
      sockets.csfd ∉ ready ∨ maxFd = if sockets.ssfd ∈ ready then 1 else 0 := by
  have clearing := Listening.clearing_start ready connection
  rw [Sockets.acceptLoop]
  by_cases services : sockets.ssfd ∈ ready
  · have left : (((Listening.start ready connection).accept sockets.ssfd).clear
        sockets.ssfd).readset = ready.erase sockets.ssfd := by
      rw [Listening.readset_clear, Listening.readset_accept]
      rfl
    have within : ready.erase sockets.ssfd ⊆ {sockets.csfd} := Finset.subset_insert_iff.mp among
    have same : sockets.csfd ∈ ready.erase sockets.ssfd ↔ sockets.csfd ∈ ready := by
      rw [Finset.mem_erase, and_iff_right apart.symm]
    rw [forUp_first (Nat.succ_pos maxFd), serve_services services clearing.waiting, if_pos services,
      acceptedOnce_rounds_iff (clearing.acceptClear services) (left ▸ within) apart (by omega),
      left, same]
    exact or_congr_right (by omega)
  · have within : ready ⊆ {sockets.csfd} := by
      intro fd inside
      rcases Finset.mem_insert.mp (among inside) with rfl | client
      · exact absurd inside services
      · exact client
    rw [if_neg services, acceptedOnce_rounds_iff clearing within apart (Nat.zero_le _)]
    exact or_congr_right (by omega)

theorem acceptLoop_acceptedOnce_iff_services : ({3} : Finset ℕ) ⊆ {3, 4} ∧
    (Listening.AcceptedOnce {3} ((Sockets.mk 3 4).acceptLoop 4
      (Listening.start {3} fun _ => Event.request [49] [])) ↔ 4 ∉ ({3} : Finset ℕ) ∨
        4 = if 3 ∈ ({3} : Finset ℕ) then 1 else 0) :=
  ⟨by decide, acceptLoop_acceptedOnce_iff ⟨3, 4⟩ 4 {3} _ (by decide) (by decide)⟩

/-- A client connects, and the server takes the connection in its first round and waits for another
one in its second. -/
theorem acceptLoop_waits : ¬Listening.AcceptedOnce {4}
    ((Sockets.mk 3 4).acceptLoop (Sockets.mk 3 4).maxFd
      (Listening.start {4} fun _ => Event.request [49] [])) := by
  intro once
  have going := once.waiting
  revert going
  decide

/-- The loops of the server of `ss` over its sockets, with `accept` called on those that are in the
set. -/
def acceptEach (sfd : ℕ → ℕ) (servicesCount maxFd : ℕ) (state : Listening Event) :
    Listening Event :=
  forUp 0 (maxFd + 1) (fun _ => forUp 0 servicesCount fun j current =>
    if sfd j ∈ current.readset then (current.accept (sfd j)).clear (sfd j) else current) state

theorem acceptEach_acceptedOnce (sfd : ℕ → ℕ) (servicesCount maxFd : ℕ) (ready : Finset ℕ)
    (connection : ℕ → Event) (among : ∀ fd ∈ ready, ∃ j < servicesCount, sfd j = fd) :
    Listening.AcceptedOnce ready
      (acceptEach sfd servicesCount maxFd (Listening.start ready connection)) := by
  -- In each round the sockets below `j` have left the set, and after the first they all have.
  let invariant (j : ℕ) (current : Listening Event) : Prop :=
    Listening.Clearing ready current ∧ ∀ fd ∈ current.readset, ∃ other, j ≤ other ∧
      other < servicesCount ∧ sfd other = fd
  have round : ∀ current, invariant 0 current → invariant servicesCount
      (forUp 0 servicesCount (fun j current => if sfd j ∈ current.readset then
        (current.accept (sfd j)).clear (sfd j) else current) current) := by
    intro current held
    apply forUp_induction invariant (Nat.zero_le _) held
    rintro j current _ _ ⟨clearing, left⟩
    by_cases reported : sfd j ∈ current.readset
    · rw [if_pos reported]
      refine ⟨clearing.acceptClear reported, ?_⟩
      intro fd inside
      rw [Listening.readset_clear, Listening.readset_accept, Finset.mem_erase] at inside
      rcases left fd inside.2 with ⟨other, from_j, below, same⟩
      refine ⟨other, ?_, below, same⟩
      rcases Nat.eq_or_lt_of_le from_j with rfl | later
      · exact absurd same.symm inside.1
      · exact later
    · rw [if_neg reported]
      refine ⟨clearing, ?_⟩
      intro fd inside
      rcases left fd inside with ⟨other, from_j, below, same⟩
      refine ⟨other, ?_, below, same⟩
      rcases Nat.eq_or_lt_of_le from_j with rfl | later
      · exact absurd (same ▸ inside) reported
      · exact later
  have weaken : ∀ current, invariant servicesCount current → invariant 0 current := by
    rintro current ⟨clearing, left⟩
    refine ⟨clearing, ?_⟩
    intro fd inside
    rcases left fd inside with ⟨other, _, below, same⟩
    exact ⟨other, Nat.zero_le other, below, same⟩
  have first : invariant 0 (Listening.start ready connection) := by
    refine ⟨Listening.clearing_start ready connection, ?_⟩
    intro fd inside
    rcases among fd inside with ⟨j, below, same⟩
    exact ⟨j, Nat.zero_le j, below, same⟩
  have last : invariant servicesCount
      (acceptEach sfd servicesCount maxFd (Listening.start ready connection)) := by
    rw [acceptEach, forUp_first (Nat.succ_pos maxFd)]
    apply forUp_induction (fun _ => invariant servicesCount) (Nat.succ_le_succ (Nat.zero_le maxFd))
    · exact round _ first
    · intro _ current _ _ held
      exact round current (weaken current held)
  rcases last with ⟨clearing, left⟩
  rw [clearing.acceptedOnce_iff]
  apply Finset.eq_empty_of_forall_notMem
  intro fd inside
  rcases left fd inside with ⟨other, from_count, below, _⟩
  omega

end NetLab.Mss
