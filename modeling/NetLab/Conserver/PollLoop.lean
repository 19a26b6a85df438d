import NetLab.Imperative.Loop
import Mathlib.Data.List.Nodup
import Mathlib.Data.Set.Function

/-!
# The server that polls its clients

The server of `end/conserver` accepts a client when it finds the listening socket ready, and
else serves the clients it finds ready. To find out it combines `revents` with the number of
the descriptor instead of `events`, so that it overlooks the clients with an even number.
-/

namespace NetLab.Conserver

open NetLab.Imperative

/-- An entry of `fdp`, as `poll` leaves it. -/
structure PollFd where
  fd : BitVec 32
  events : BitVec 16
  revents : BitVec 16

def pollin : BitVec 16 := 1#16

/-- The first entry is the listening socket. Those from `clientCount` on are not in use. -/
structure Server where
  fdp : ℕ → PollFd
  clientCount : ℕ

inductive Action where
  | accepts (fd : BitVec 32)
  | receives (fd : BitVec 32)
  | answers (fd : BitVec 32)
deriving DecidableEq

/-- `fdp[i].fd & fdp[i].revents`, in which the operands are promoted to `int`. -/
def PollFd.Tested (entry : PollFd) : Prop :=
  entry.fd &&& entry.revents.signExtend 32 ≠ 0#32

instance (entry : PollFd) : Decidable entry.Tested :=
  inferInstanceAs (Decidable (_ ≠ _))

def PollFd.serve (entry : PollFd) : List Action :=
  [.receives entry.fd, .answers entry.fd]

def Server.serveClients (server : Server) : List Action :=
  forUp 1 server.clientCount
    (fun i log => if (server.fdp i).Tested then log ++ (server.fdp i).serve else log) []

/-- What follows a call of `poll`, with the descriptor that `accept` would return. -/
def Server.pass (server : Server) (nfd : BitVec 32) : List Action × Server :=
  if (server.fdp 0).Tested then
    ([.accepts (server.fdp 0).fd],
      { fdp := Function.update server.fdp server.clientCount
          { server.fdp server.clientCount with fd := nfd, events := pollin }
        clientCount := server.clientCount + 1 })
  else (server.serveClients, server)

structure Server.Ready (server : Server) (i : ℕ) : Prop where
  client : 1 ≤ i
  connected : i < server.clientCount
  pollin : (server.fdp i).revents &&& pollin ≠ 0#16

/-- Each client that is ready is received from and answered once, and no other one. -/
structure Server.ServesReady (server : Server) (log : List Action) : Prop where
  receives : ∀ fd, .receives fd ∈ log ↔ ∃ i, server.Ready i ∧ (server.fdp i).fd = fd
  answers : ∀ fd, .answers fd ∈ log ↔ ∃ i, server.Ready i ∧ (server.fdp i).fd = fd
  once : log.Nodup

/-- What `poll` reports when there are no errors and the listening socket is not ready. -/
structure Server.Polled (server : Server) : Prop where
  listening : (server.fdp 0).revents = 0#16
  clients : ∀ i < server.clientCount,
    (server.fdp i).revents = 0#16 ∨ (server.fdp i).revents = pollin

def Server.Distinct (server : Server) : Prop :=
  Set.InjOn (fun i => (server.fdp i).fd) {i | 1 ≤ i ∧ i < server.clientCount}

section Serving

variable {server : Server}

theorem serveClients_eq (server : Server) : server.serveClients =
    ((List.range' 1 (server.clientCount - 1)).filter fun i => (server.fdp i).Tested).flatMap
      fun i => (server.fdp i).serve := by
  rcases Nat.le_total server.clientCount 1 with none | some
  · rw [Server.serveClients, forUp_of_le none, Nat.sub_eq_zero_of_le none]
    rfl
  · apply forUp_induction (fun count log => log =
      ((List.range' 1 (count - 1)).filter fun i => (server.fdp i).Tested).flatMap
        fun i => (server.fdp i).serve) some
    · rfl
    · rintro i log positive _ rfl
      have next : List.range' 1 (i + 1 - 1) = List.range' 1 (i - 1) ++ [i] := by
        have last : i + 1 - 1 = i - 1 + 1 := by omega
        rw [last, List.range'_concat, Nat.one_mul, Nat.add_sub_cancel' positive]
      rw [next, List.filter_append, List.flatMap_append]
      split
      case isTrue tested => simp [tested]
      case isFalse tested => simp [tested]

theorem mem_serveClients {action : Action} : action ∈ server.serveClients ↔
    ∃ i, (1 ≤ i ∧ i < server.clientCount) ∧ (server.fdp i).Tested ∧
      action ∈ (server.fdp i).serve := by
  rw [serveClients_eq, List.mem_flatMap]
  simp only [List.mem_filter, List.mem_range'_1, decide_eq_true_eq, and_assoc]
  constructor
  · rintro ⟨i, client, connected, found⟩
    exact ⟨i, client, by omega, found⟩
  · rintro ⟨i, client, connected, found⟩
    exact ⟨i, client, by omega, found⟩

theorem nodup_serveClients (distinct : server.Distinct) : server.serveClients.Nodup := by
  rw [serveClients_eq, List.nodup_flatMap]
  constructor
  · intro i _
    simp [PollFd.serve]
  · have slots : (List.range' 1 (server.clientCount - 1)).Nodup := List.nodup_range'
    apply List.Pairwise.imp_of_mem _ (slots.filter _)
    intro i j listed other apart
    simp only [List.mem_filter, List.mem_range'_1] at listed other
    have different : (server.fdp i).fd ≠ (server.fdp j).fd := by
      intro same
      exact apart (distinct ⟨listed.1.1, by omega⟩ ⟨other.1.1, by omega⟩ same)
    simp [Function.onFun, PollFd.serve, different.symm]

theorem not_tested_of_zero {entry : PollFd} (quiet : entry.revents = 0#16) : ¬entry.Tested := by
  rw [PollFd.Tested, quiet]
  simp

/-- A descriptor has a bit in common with `POLLIN` when it is odd. -/
theorem tested_iff_odd {entry : PollFd} (reported : entry.revents = pollin) :
    entry.Tested ↔ entry.fd.toNat % 2 = 1 := by
  have promoted : pollin.signExtend 32 = 1#32 := by decide
  rw [PollFd.Tested, reported, promoted, ne_eq, BitVec.toNat_eq, BitVec.toNat_and]
  simp only [BitVec.toNat_ofNat, Nat.reducePow, Nat.reduceMod, Nat.and_one_is_mod]
  omega

theorem pass_of_polled (polled : server.Polled) (nfd : BitVec 32) :
    server.pass nfd = (server.serveClients, server) := by
  rw [Server.pass, if_neg (not_tested_of_zero polled.listening)]

theorem tested_iff_ready {i : ℕ} (polled : server.Polled)
    (odd : ∀ i, server.Ready i → (server.fdp i).fd.toNat % 2 = 1)
    (client : 1 ≤ i ∧ i < server.clientCount) : (server.fdp i).Tested ↔ server.Ready i := by
  rcases polled.clients i client.2 with quiet | reported
  · apply iff_of_false (not_tested_of_zero quiet)
    intro ready
    exact ready.pollin (by rw [quiet]; rfl)
  · have ready : server.Ready i := ⟨client.1, client.2, by rw [reported]; decide⟩
    exact iff_of_true ((tested_iff_odd reported).mpr (odd i ready)) ready

end Serving

/-- The server serves the clients that are ready exactly when all of these have odd descriptors. -/
theorem servesReady_iff_odd (server : Server) (nfd : BitVec 32) (polled : server.Polled)
    (distinct : server.Distinct) : server.ServesReady (server.pass nfd).1 ↔
      ∀ i, server.Ready i → (server.fdp i).fd.toNat % 2 = 1 := by
  rw [pass_of_polled polled]
  constructor
  · intro serves i ready
    have received := (serves.receives _).mpr ⟨i, ready, rfl⟩
    rcases mem_serveClients.mp received with ⟨j, client, tested, found⟩
    have same : (server.fdp i).fd = (server.fdp j).fd := by
      simpa [PollFd.serve] using found
    have reported := (polled.clients j client.2).resolve_left
      fun quiet => not_tested_of_zero quiet tested
    rw [same]
    exact (tested_iff_odd reported).mp tested
  · intro odd
    have ready := fun i client => @tested_iff_ready server i polled odd client
    have served (make : BitVec 32 → Action)
        (among : ∀ (entry : PollFd) fd, make fd ∈ entry.serve ↔ entry.fd = fd) (fd : BitVec 32) :
        make fd ∈ server.serveClients ↔ ∃ i, server.Ready i ∧ (server.fdp i).fd = fd := by
      rw [mem_serveClients]
      constructor
      · rintro ⟨i, client, tested, found⟩
        exact ⟨i, (ready i client).mp tested, (among _ fd).mp found⟩
      · rintro ⟨i, readable, same⟩
        have client := And.intro readable.client readable.connected
        exact ⟨i, client, (ready i client).mpr readable, (among _ fd).mpr same⟩
    constructor
    case receives => exact served .receives fun entry fd => by simp [PollFd.serve, eq_comm]
    case answers => exact served .answers fun entry fd => by simp [PollFd.serve, eq_comm]
    case once => exact nodup_serveClients distinct

def oneClient (fd : BitVec 32) : Server where
  fdp i := if i = 0 then { fd := 3#32, events := pollin, revents := 0#16 }
    else { fd, events := pollin, revents := pollin }
  clientCount := 2

theorem polled_oneClient (fd : BitVec 32) : (oneClient fd).Polled := by
  constructor
  case listening => rfl
  case clients =>
    intro i _
    rcases Nat.eq_zero_or_pos i with rfl | positive
    · exact Or.inl rfl
    · exact Or.inr (congrArg PollFd.revents (if_neg positive.ne'))

theorem distinct_oneClient (fd : BitVec 32) : (oneClient fd).Distinct := by
  rintro i ⟨client, connected⟩ j ⟨other, below⟩ _
  change i < 2 at connected
  change j < 2 at below
  omega

theorem servesReady_five : (oneClient 5#32).ServesReady ((oneClient 5#32).pass 6#32).1 := by
  apply (servesReady_iff_odd _ _ (polled_oneClient _) (distinct_oneClient _)).mpr
  intro i ready
  change (if i = 0 then _ else _ : PollFd).fd.toNat % 2 = 1
  rw [if_neg (Nat.one_le_iff_ne_zero.mp ready.client)]
  rfl

/-- The first client gets the descriptor 4, and is never heard. -/
theorem four_not_served : ((oneClient 4#32).pass 5#32).1 = [] ∧
    ¬(oneClient 4#32).ServesReady ((oneClient 4#32).pass 5#32).1 := by
  have silent : ((oneClient 4#32).pass 5#32).1 = [] := by decide
  refine ⟨silent, ?_⟩
  intro serves
  have ready : (oneClient 4#32).Ready 1 := ⟨le_rfl, by decide, by decide⟩
  have received := (serves.receives 4#32).mpr ⟨1, ready, rfl⟩
  rw [silent] at received
  cases received

end NetLab.Conserver
