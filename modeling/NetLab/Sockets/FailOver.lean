import NetLab.Imperative.Loop
import Mathlib.Data.List.Induction
import Mathlib.Logic.Function.Basic

/-!
# Fail-over to the backup server of `bs`

The server keeps the descriptors of its clients and, on `SIGUSR1`, sends them to
the backup server, which starts a thread for each. Both sides have room for five.
Descriptors get new numbers when they are received; the clients are told apart by
their position in the order in which they were accepted.

Every access to the three arrays is recorded. One that is out of range goes to
memory of something else; the arrays of the model go on there instead.
-/

namespace NetLab.Sockets

open NetLab.Imperative

def maxClients : ℕ :=
  5

inductive Access where
  | cfd (index : ℕ)
  | threads (index : ℕ)
  | csfd (index : ℕ)
deriving DecidableEq, Repr

def Access.index : Access → ℕ
  | cfd index | threads index | csfd index => index

/-- The globals of `server.c`. -/
structure BsServer where
  cfd : ℕ → ℤ
  clientsNo : ℕ
  accesses : List Access

/-- The server before it accepts clients. -/
def BsServer.start : BsServer :=
  forUp 0 maxClients
    (fun i server =>
      { server with
        cfd := Function.update server.cfd i (-1)
        accesses := server.accesses ++ [.cfd i] })
    { cfd := fun _ => 0, clientsNo := 0, accesses := [] }

/-- A round of the loop of `main`, when `accept` returns `nfd`. The index of the thread is the
number of clients that counts this one already. -/
def BsServer.accept (server : BsServer) (nfd : ℤ) : BsServer where
  cfd := Function.update server.cfd server.clientsNo nfd
  clientsNo := server.clientsNo + 1
  accesses := server.accesses ++ [.cfd server.clientsNo, .threads (server.clientsNo + 1)]

/-- `rounds` rounds of the loop of `handler_func`, from `i` on: the descriptors that are sent and
the entries that are read. -/
def BsServer.sendFrom (server : BsServer) : ℕ → ℕ → List ℤ × List Access
  | 0, _ => ([], [])
  | rounds + 1, i =>
      if server.cfd i = -1 then ([], [.cfd i])
      else
        let (sent, accesses) := server.sendFrom rounds (i + 1)
        (server.cfd i :: sent, .cfd i :: accesses)

def BsServer.handlerFunc (server : BsServer) : List ℤ × List Access :=
  server.sendFrom maxClients 0

/-- The globals of `backserver.c`, and the descriptors for which it has started threads. -/
structure BackServer where
  csfd : ℕ → ℤ
  clientsNo : ℕ
  started : List ℤ
  accesses : List Access

def BackServer.start : BackServer where
  csfd := fun _ => 0
  clientsNo := 0
  started := []
  accesses := []

/-- `recv_file_descriptor`, when these are the messages still to come: after the last one the
sender has ended. -/
def recvFileDescriptor (messages : List ℤ) : ℤ :=
  messages.headD 0

/-- `csfd[clients_no++]=fd`. -/
def BackServer.store (server : BackServer) (fd : ℤ) : BackServer :=
  { server with
    csfd := Function.update server.csfd server.clientsNo fd
    clientsNo := server.clientsNo + 1
    accesses := server.accesses ++ [.csfd server.clientsNo] }

/-- `rounds` rounds of the loop of `handler_func`. -/
def BackServer.receive (server : BackServer) : ℕ → List ℤ → BackServer
  | 0, _ => server
  | rounds + 1, messages =>
      let fd := recvFileDescriptor messages
      if fd = -1 then server else (server.store fd).receive rounds messages.tail

/-- The body of the loop of `thread_caller`; `count` is the number of threads it has started. -/
def BackServer.callThread (i : ℕ) (server : BackServer) : BackServer :=
  if server.csfd i > 0 then
    { server with
      started := server.started ++ [server.csfd i]
      accesses := server.accesses ++ [.csfd i, .threads server.started.length, .csfd i] }
  else { server with accesses := server.accesses ++ [.csfd i] }

def BackServer.threadCaller (server : BackServer) : BackServer :=
  forUp 0 server.clientsNo BackServer.callThread server

/-- `handler_func` of the backup server, with the numbers its clients arrive under. -/
def BackServer.handlerFunc (server : BackServer) (messages : List ℤ) : BackServer :=
  (server.receive maxClients messages).threadCaller

/-- The server after it has accepted clients with these descriptors. -/
def BsServer.after (clients : List ℤ) : BsServer :=
  clients.foldl BsServer.accept BsServer.start

/-- The backup server after the fail-over, when the message with the position `i` arrives under the
descriptor `number i`. -/
def BackServer.after (clients : List ℤ) (number : ℕ → ℤ) : BackServer :=
  BackServer.start.handlerFunc
    ((List.range (BsServer.after clients).handlerFunc.1.length).map number)

/-- Every client that the server has accepted is sent, the backup server starts one thread for each
and none for anything else, and no access on either side is out of range. -/
structure HandsOver (clients : List ℤ) (number : ℕ → ℤ) : Prop where
  sent : (BsServer.after clients).handlerFunc.1 = clients
  started : (BackServer.after clients number).started =
    (List.range clients.length).map number
  inRange : ∀ access ∈ (BsServer.after clients).accesses ++
    (BsServer.after clients).handlerFunc.2 ++ (BackServer.after clients number).accesses,
    access.index < maxClients

section Server

theorem start_cfd : ∀ i < maxClients, BsServer.start.cfd i = -1 := by
  decide

/-- The server keeps the descriptors in their order, and uses its array of threads one entry too
far. -/
theorem after_spec (clients : List ℤ) :
    (BsServer.after clients).clientsNo = clients.length ∧
      (∀ i, (BsServer.after clients).cfd i = clients[i]?.getD (BsServer.start.cfd i)) ∧
      (BsServer.after clients).accesses = BsServer.start.accesses ++
        (List.range clients.length).flatMap fun i => [.cfd i, .threads (i + 1)] := by
  induction clients using List.reverseRecOn with
  | nil => exact ⟨rfl, fun _ => rfl, rfl⟩
  | append_singleton clients nfd ih =>
      rcases ih with ⟨count, cfd, accesses⟩
      have last : BsServer.after (clients ++ [nfd]) = (BsServer.after clients).accept nfd :=
        List.foldl_append
      rw [last, BsServer.accept, count]
      refine ⟨by simp, fun i => ?_, ?_⟩
      · rcases eq_or_ne i clients.length with rfl | other
        · simp
        · simp only [Function.update_of_ne other, cfd]
          rcases Nat.lt_or_ge i clients.length with earlier | later
          · rw [List.getElem?_append_left earlier]
          · rw [List.getElem?_eq_none later, List.getElem?_eq_none (by simp; omega)]
      · simp [accesses, List.range_succ]

/-- The handler sends the entries up to the first -1, and reads no entry behind its rounds. -/
theorem sendFrom_accesses (server : BsServer) (rounds i : ℕ) :
    ∀ access ∈ (server.sendFrom rounds i).2, access.index < i + rounds := by
  induction rounds generalizing i with
  | zero => simp [BsServer.sendFrom]
  | succ rounds ih =>
      rw [BsServer.sendFrom]
      split
      case isTrue => simp [Access.index]
      case isFalse =>
        simp only [List.forall_mem_cons]
        refine ⟨by simp [Access.index], fun access inside => ?_⟩
        have bound := ih (i + 1) access inside
        omega

theorem sendFrom_sent (server : BsServer) {clients : List ℤ} {rounds i : ℕ}
    (held : ∀ j, (short : j < clients.length) → server.cfd (i + j) = clients[j])
    (accepted : ∀ nfd ∈ clients, nfd ≠ -1) (ended : server.cfd (i + clients.length) = -1)
    (fits : clients.length < rounds) : (server.sendFrom rounds i).1 = clients := by
  induction clients generalizing rounds i with
  | nil =>
      cases rounds with
      | zero => rfl
      | succ rounds => rw [BsServer.sendFrom, if_pos (by simpa using ended)]
  | cons nfd clients ih =>
      cases rounds with
      | zero => exact absurd fits (Nat.not_lt_zero _)
      | succ rounds =>
          have ⟨first, later⟩ := List.forall_mem_cons.mp accepted
          have here : server.cfd i = nfd := held 0 (Nat.zero_lt_succ _)
          have rest : (server.sendFrom rounds (i + 1)).1 = clients := by
            apply ih
            · intro j short
              have next := held (j + 1) (Nat.succ_lt_succ short)
              rwa [← Nat.add_assoc, Nat.add_right_comm] at next
            · exact later
            · rwa [List.length_cons, ← Nat.add_assoc, Nat.add_right_comm] at ended
            · exact Nat.lt_of_succ_lt_succ fits
          rw [BsServer.sendFrom, if_neg (by rwa [here])]
          simp only [here, rest]

end Server

section Backup

@[simp]
theorem store_clientsNo (server : BackServer) (fd : ℤ) :
    (server.store fd).clientsNo = server.clientsNo + 1 :=
  rfl

/-- What the rounds of the loop make of `server`: they store the messages that are left, and zeros
when there are no more. -/
structure Receives (server : BackServer) (rounds : ℕ) (messages : List ℤ) (after : BackServer) :
    Prop where
  clientsNo : after.clientsNo = server.clientsNo + rounds
  stored : ∀ j < rounds, after.csfd (server.clientsNo + j) = messages[j]?.getD 0
  kept : ∀ i < server.clientsNo, after.csfd i = server.csfd i
  started : after.started = server.started
  accesses : after.accesses = server.accesses ++
    (List.range rounds).map fun j => .csfd (server.clientsNo + j)

theorem receive_receives (server : BackServer) (rounds : ℕ) {messages : List ℤ}
    (valid : ∀ fd ∈ messages, fd ≠ -1) :
    Receives server rounds messages (server.receive rounds messages) := by
  induction rounds generalizing server messages with
  | zero =>
      constructor
      case clientsNo => rfl
      case stored => exact nofun
      case kept => exact fun _ _ => rfl
      case started => rfl
      case accesses => exact (List.append_nil _).symm
  | succ rounds ih =>
      have continues : recvFileDescriptor messages ≠ -1 := by
        cases messages with
        | nil => exact nofun
        | cons fd messages => exact valid fd List.mem_cons_self
      have first : messages[0]?.getD 0 = recvFileDescriptor messages := by
        cases messages <;> rfl
      rw [BackServer.receive, if_neg continues]
      have rest := ih (server.store (recvFileDescriptor messages)) fun fd listed =>
        valid fd (List.mem_of_mem_tail listed)
      constructor
      case clientsNo =>
        rw [rest.clientsNo, store_clientsNo]
        exact Nat.add_right_comm _ _ _
      case stored =>
        intro j inside
        cases j with
        | zero =>
            have here := rest.kept server.clientsNo (Nat.lt_succ_self _)
            rw [Nat.add_zero, first]
            exact here.trans (Function.update_self _ _ _)
        | succ j =>
            have later := rest.stored j (Nat.lt_of_succ_lt_succ inside)
            rwa [List.getElem?_tail, store_clientsNo, Nat.add_right_comm] at later
      case kept =>
        intro i before
        rw [rest.kept i (Nat.lt_succ_of_lt before)]
        exact Function.update_of_ne before.ne _ _
      case started => exact rest.started
      case accesses =>
        rw [rest.accesses, List.range_succ_eq_map, List.map_cons, List.map_map, store_clientsNo,
          BackServer.store, List.append_assoc]
        simp only [Nat.add_right_comm _ 1, Nat.add_zero, List.singleton_append]
        rfl

/-- The state of the loop of `thread_caller` when it comes to `i`. -/
structure Calls (server : BackServer) (i : ℕ) (current : BackServer) : Prop where
  csfd : current.csfd = server.csfd
  started : current.started = ((List.range i).map server.csfd).filter (0 < ·)
  inRange : ∀ access ∈ current.accesses, access.index < maxClients

theorem callThread_calls {server current : BackServer} {i : ℕ} (calls : Calls server i current)
    (inside : i < maxClients) : Calls server (i + 1) (BackServer.callThread i current) := by
  have count : current.started.length ≤ i := by
    rw [calls.started]
    exact (List.length_filter_le _ _).trans (by simp)
  have more : ((List.range (i + 1)).map server.csfd).filter (0 < ·) =
      current.started ++ [server.csfd i].filter (0 < ·) := by
    rw [List.range_succ, List.map_append, List.filter_append, calls.started]
    rfl
  rw [BackServer.callThread, calls.csfd]
  split
  case isTrue positive =>
    constructor
    case csfd => rfl
    case started =>
      rw [more, List.filter_cons_of_pos (by simpa using positive)]
      rfl
    case inRange =>
      simp only [List.forall_mem_append, List.forall_mem_cons, Access.index]
      exact ⟨calls.inRange, inside, count.trans_lt inside, inside, nofun⟩
  case isFalse other =>
    constructor
    case csfd => rfl
    case started =>
      rw [more, List.filter_cons_of_neg (by simpa using other)]
      exact (List.append_nil _).symm
    case inRange =>
      simp only [List.forall_mem_append, List.forall_mem_singleton, Access.index]
      exact ⟨calls.inRange, inside⟩

theorem threadCaller_calls {server : BackServer} (unused : server.started = [])
    (fits : server.clientsNo ≤ maxClients)
    (inRange : ∀ access ∈ server.accesses, access.index < maxClients) :
    Calls server server.clientsNo server.threadCaller := by
  apply forUp_induction (Calls server) (Nat.zero_le _)
  · exact ⟨rfl, unused, inRange⟩
  · intro i current _ inside calls
    exact callThread_calls calls (inside.trans_le fits)

/-- The backup server starts a thread for each message, of which there may be five, and for
nothing else. -/
theorem handlerFunc_started {messages : List ℤ} (positive : ∀ fd ∈ messages, 0 < fd)
    (fits : messages.length ≤ maxClients) :
    (BackServer.start.handlerFunc messages).started = messages ∧
      ∀ access ∈ (BackServer.start.handlerFunc messages).accesses,
        access.index < maxClients := by
  have valid : ∀ fd ∈ messages, fd ≠ -1 := by
    rintro fd listed rfl
    exact absurd (positive (-1) listed) (by decide)
  have receives := receive_receives BackServer.start maxClients valid
  have count : (BackServer.start.receive maxClients messages).clientsNo = maxClients :=
    receives.clientsNo
  have inRange : ∀ access ∈ (BackServer.start.receive maxClients messages).accesses,
      access.index < maxClients := by
    rw [receives.accesses]
    decide
  have calls := threadCaller_calls receives.started count.le inRange
  refine ⟨?_, calls.inRange⟩
  have stored : (List.range maxClients).map
      (BackServer.start.receive maxClients messages).csfd =
      messages ++ List.replicate (maxClients - messages.length) 0 := by
    apply List.ext_getElem
    · simp
      omega
    · intro j inside _
      have entry : (BackServer.start.receive maxClients messages).csfd j =
          messages[j]?.getD 0 := by
        have stored := receives.stored j (by simpa using inside)
        rwa [BackServer.start, Nat.zero_add] at stored
      rw [List.getElem_map, List.getElem_range, entry]
      rcases Nat.lt_or_ge j messages.length with message | ended
      · rw [List.getElem_append_left message, List.getElem?_eq_getElem message]
        rfl
      · rw [List.getElem_append_right ended, List.getElem?_eq_none ended, List.getElem_replicate]
        rfl
  rw [BackServer.handlerFunc, calls.started, count, stored, List.filter_append,
    List.filter_eq_self.mpr fun fd listed => decide_eq_true (positive fd listed),
    List.filter_replicate_of_neg (by decide), List.append_nil]

end Backup

section HandsOver

variable {clients : List ℤ} {number : ℕ → ℤ}

theorem handlerFunc_sent (accepted : ∀ nfd ∈ clients, 0 ≤ nfd)
    (few : clients.length < maxClients) : (BsServer.after clients).handlerFunc.1 = clients := by
  have ⟨_, cfd, _⟩ := after_spec clients
  apply sendFrom_sent
  · intro j short
    rw [Nat.zero_add, cfd, List.getElem?_eq_getElem short]
    rfl
  · rintro nfd listed rfl
    exact absurd (accepted (-1) listed) (by decide)
  · rw [Nat.zero_add, cfd, List.getElem?_eq_none (le_refl _)]
    exact start_cfd clients.length few
  · exact few

theorem after_accesses_inRange_iff :
    (∀ access ∈ (BsServer.after clients).accesses, access.index < maxClients) ↔
      clients.length < maxClients := by
  have started : ∀ access ∈ BsServer.start.accesses, access.index < maxClients := by
    decide
  rw [(after_spec clients).2.2, List.forall_mem_append, and_iff_right started]
  constructor
  · intro inRange
    by_contra many
    have listed : Access.threads (4 + 1) ∈ (List.range clients.length).flatMap
        fun i => [Access.cfd i, .threads (i + 1)] := by
      apply List.mem_flatMap.mpr
      exact ⟨4, List.mem_range.mpr (not_lt.mp many), by simp⟩
    exact absurd (inRange _ listed) (by decide)
  · intro few access listed
    rcases List.mem_flatMap.mp listed with ⟨i, inside, listed⟩
    have earlier := List.mem_range.mp inside
    simp only [List.mem_cons, List.not_mem_nil, or_false] at listed
    rcases listed with rfl | rfl
    · exact earlier.trans few
    · exact (Nat.succ_le_of_lt earlier).trans_lt few

end HandsOver

/-- The fail-over hands over every client, and stays inside the arrays, exactly when there are at
most four. -/
theorem handsOver_iff (clients : List ℤ) (number : ℕ → ℤ) (accepted : ∀ nfd ∈ clients, 0 ≤ nfd)
    (positive : ∀ i, 0 < number i) : HandsOver clients number ↔ clients.length < maxClients := by
  constructor
  · intro handsOver
    apply after_accesses_inRange_iff.mp
    intro access listed
    exact handsOver.inRange access
      (List.mem_append_left _ (List.mem_append_left _ listed))
  · intro few
    have sent := handlerFunc_sent accepted few
    have backup := handlerFunc_started
      (List.forall_mem_map.mpr fun i _ => positive i :
        ∀ fd ∈ (List.range clients.length).map number, 0 < fd)
      (by simpa using few.le)
    constructor
    case sent => exact sent
    case started =>
      rw [BackServer.after, sent]
      exact backup.1
    case inRange =>
      rw [List.forall_mem_append, List.forall_mem_append, BackServer.after, sent]
      refine ⟨⟨after_accesses_inRange_iff.mpr few, fun access listed => ?_⟩, backup.2⟩
      have bound := sendFrom_accesses (BsServer.after clients) maxClients 0 access listed
      rwa [Nat.zero_add] at bound

/-- The four clients on the descriptors from 6 on arrive under the numbers from 5 on. -/
theorem handsOver_four : HandsOver [6, 7, 8, 9] fun i => i + 5 :=
  (handsOver_iff [6, 7, 8, 9] (fun i => i + 5) (by decide) fun i => by omega).mpr (by decide)

/-- The thread of a fifth client is stored behind the array. -/
theorem fifth_out_of_range : ¬ HandsOver [6, 7, 8, 9, 10] fun i => i + 5 := by
  intro handsOver
  have listed : Access.threads 5 ∈ (BsServer.after [6, 7, 8, 9, 10]).accesses := by
    decide
  exact absurd (handsOver.inRange _
    (List.mem_append_left _ (List.mem_append_left _ listed))) (by decide)

end NetLab.Sockets
