import NetLab.Systems.Channels
import NetLab.Systems.Runs

/-!
# The ticket servers of `csemulti`

The ticket process `tc` accepts clients and passes the descriptor of each, by the
client's choice, to one of the servers `c`, `s` and `e`. A server starts a thread
for a client until it has as many as it can serve; from then on `c` passes what it
receives on to `s`, `s` to `e`, and `e` ends `tc` and itself.

The main loops are modelled from the point on where all sockets are connected, one
round at a time. A process can end at any time, which closes its sockets, and
`recvmsg` can fail; the loops use what `recv_file_descriptor` returns in any case.
-/

namespace NetLab.TicketChain

open NetLab.Systems

inductive Process where
  | tc
  | c
  | s
  | e
deriving DecidableEq, Repr

instance : Fintype Process where
  elems := {.tc, .c, .s, .e}
  complete := by
    intro process
    cases process <;> decide

/-- The connections that descriptors are sent over. -/
inductive Channel where
  | tcToC
  | tcToS
  | tcToE
  | cToS
  | sToE
deriving DecidableEq, Repr

instance : Fintype Channel where
  elems := {.tcToC, .tcToS, .tcToE, .cToS, .sToE}
  complete := by
    intro channel
    cases channel <;> decide

def Channel.sender : Channel → Process
  | tcToC | tcToS | tcToE => .tc
  | cToS => .c
  | sToE => .s

def Channel.receiver : Channel → Process
  | tcToC => .c
  | tcToS | cToS => .s
  | tcToE | sToE => .e

/-- The `max_clients` of a server. -/
def Process.maxClients : Process → ℕ
  | tc => 0
  | c => 1
  | s => 2
  | e => 3

/-- Where a server that is full passes on what it receives. -/
def Process.onward : Process → Option Channel
  | c => some .cToS
  | s => some .sToE
  | tc | e => none

/-- What a descriptor in a message refers to: the connection of a client, by the order in which `tc`
has accepted it, or the standard input that a process has sent as the descriptor 0. -/
inductive Descriptor where
  | client (number : ℕ)
  | terminal
deriving DecidableEq, Repr

/-- What `recv_file_descriptor` returns: the descriptor in a message, or the result of `recvmsg`
when that is 0 or -1. -/
inductive Received where
  | descriptor (sent : Descriptor)
  | failure (res : ℤ)
deriving DecidableEq, Repr

/-- The processes and the messages under way. `threads` has the values for which a server has
started threads, `clients_no` of them; `forwarded` those that a server has passed to
`send_file_descriptor`, and `signalled` those upon which `e` has sent `SIGUSR1`. -/
structure Chain where
  choices : List ℤ
  queue : Channel → List Descriptor
  threads : Process → List Received
  forwarded : List Received
  signalled : List Received
  running : Process → Bool

def Chain.initial : Chain where
  choices := []
  queue := fun _ => []
  threads := fun _ => []
  forwarded := []
  signalled := []
  running := fun _ => true

def Chain.withQueue (chain : Chain) (channel : Channel) (queue : List Descriptor) : Chain :=
  { chain with queue := Function.update chain.queue channel queue }

/-- `pthread_create(&threads[clients_no++], ..)`. -/
def Chain.startThread (chain : Chain) (server : Process) (fd : Received) : Chain :=
  { chain with threads := Function.update chain.threads server (chain.threads server ++ [fd]) }

/-- `kill(pid, SIGUSR1)`, whose handler ends `tc`, and `exit(0)`. -/
def Chain.shutDown (chain : Chain) (server : Process) (fd : Received) : Chain :=
  { chain with
    signalled := chain.signalled ++ [fd]
    running := Function.update (Function.update chain.running .tc false) server false }

/-- `fd` is one more of the values a server has passed to `send_file_descriptor`. -/
def Chain.recordForwarded (chain : Chain) (fd : Received) : Chain :=
  { chain with forwarded := chain.forwarded ++ [fd] }

/-- A process has ended. -/
def Chain.exited (chain : Chain) (process : Process) : Chain :=
  { chain with running := Function.update chain.running process false }

/-- `tc` has accepted one more client. -/
def Chain.accepted (chain : Chain) (servNo : ℤ) : Chain :=
  { chain with choices := chain.choices ++ [servNo] }

/-- `sendmsg` of a descriptor. Writing to a process that has ended ends the sender. -/
def Chain.deliver (chain : Chain) (channel : Channel) (sent : Descriptor) : Chain :=
  if chain.running channel.receiver then
    chain.withQueue channel (chain.queue channel ++ [sent])
  else chain.exited channel.sender

/-- `send_file_descriptor`. The descriptor 0 is the sender's standard input; a negative one is
refused by the system. -/
def Chain.sendFileDescriptor (chain : Chain) (channel : Channel) (fdToSend : Received) : Chain :=
  match fdToSend with
  | .descriptor sent => chain.deliver channel sent
  | .failure res => if res = 0 then chain.deliver channel .terminal else chain

/-- What the main loop of a server does with the value it has received. -/
def Chain.handle (chain : Chain) (server : Process) (fd : Received) : Chain :=
  if (chain.threads server).length ≥ server.maxClients then
    match server.onward with
    | some channel => (chain.sendFileDescriptor channel fd).recordForwarded fd
    | none => chain.shutDown server fd
  else chain.startThread server fd

/-- How `recvmsg` comes out: with a message, with the end of the stream, or with an error. -/
inductive Outcome where
  | message
  | closed
  | error
deriving DecidableEq, Repr

/-- `recv_file_descriptor`. The end of the stream comes when the sender has ended and nothing is
left. -/
def Chain.recvFileDescriptor (chain : Chain) (channel : Channel) :
    Outcome → Option (Received × Chain)
  | .message =>
      match chain.queue channel with
      | [] => none
      | sent :: rest => some (.descriptor sent, chain.withQueue channel rest)
  | .closed =>
      if chain.queue channel = [] ∧ chain.running channel.sender = false then
        some (.failure 0, chain)
      else none
  | .error => some (.failure (-1), chain)

/-- The `switch` on the service a client asks for. -/
def channelOf (servNo : ℤ) : Option Channel :=
  if servNo = 1 then some .tcToC
  else if servNo = 2 then some .tcToS
  else if servNo = 3 then some .tcToE
  else none

theorem sender_channelOf {servNo : ℤ} {channel : Channel}
    (chosen : channelOf servNo = some channel) : channel.sender = .tc := by
  simp only [channelOf] at chosen
  split_ifs at chosen <;>
  · cases chosen
    rfl

theorem sender_onward {server : Process} {channel : Channel}
    (next : server.onward = some channel) : channel.sender = server := by
  cases server <;> cases next <;> rfl

theorem receiver_of_onward_none {channel : Channel}
    (last : channel.receiver.onward = none) : channel.receiver = .e := by
  cases channel <;> cases last <;> rfl

inductive Event where
  | accept (servNo : ℤ)
  | receive (channel : Channel) (outcome : Outcome)
  | exit (process : Process)
deriving DecidableEq, Repr

/-- A round of the loop of `tc` with the next client, a round of the loop of a server on one of its
channels, or the end of a process. A server with two channels may find a message on either. -/
def Chain.step (chain : Chain) : Event → Option Chain
  | .accept servNo =>
      if chain.running .tc then
        match channelOf servNo with
        | some channel =>
            some ((chain.accepted servNo).sendFileDescriptor channel
              (.descriptor (.client chain.choices.length)))
        | none => some (chain.accepted servNo)
      else none
  | .receive channel outcome =>
      if chain.running channel.receiver then
        (chain.recvFileDescriptor channel outcome).map fun received =>
          received.2.handle channel.receiver received.1
      else none
  | .exit process =>
      if chain.running process then some (chain.exited process) else none

section Updates

variable (chain : Chain) (channel other : Channel) (queue : List Descriptor) (server : Process)
  (fd : Received)

@[simp]
theorem withQueue_queue_self : (chain.withQueue channel queue).queue channel = queue :=
  Function.update_self _ _ _

theorem withQueue_queue_of_ne {channel other : Channel} (different : other ≠ channel) :
    (chain.withQueue channel queue).queue other = chain.queue other :=
  Function.update_of_ne different _ _

@[simp]
theorem startThread_threads_self :
    (chain.startThread server fd).threads server = chain.threads server ++ [fd] :=
  Function.update_self _ _ _

theorem startThread_threads_of_ne {server other : Process} (different : other ≠ server) :
    (chain.startThread server fd).threads other = chain.threads other :=
  Function.update_of_ne different _ _

@[simp]
theorem startThread_queue : (chain.startThread server fd).queue = chain.queue :=
  rfl

@[simp]
theorem startThread_signalled : (chain.startThread server fd).signalled = chain.signalled :=
  rfl

@[simp]
theorem recordForwarded_queue : (chain.recordForwarded fd).queue = chain.queue :=
  rfl

@[simp]
theorem recordForwarded_threads : (chain.recordForwarded fd).threads = chain.threads :=
  rfl

@[simp]
theorem recordForwarded_signalled : (chain.recordForwarded fd).signalled = chain.signalled :=
  rfl

@[simp]
theorem shutDown_queue : (chain.shutDown server fd).queue = chain.queue :=
  rfl

@[simp]
theorem shutDown_threads : (chain.shutDown server fd).threads = chain.threads :=
  rfl

end Updates

section Handle

/-- What a server does with a value: it starts a thread, passes the value on, or ends the system. -/
theorem handle_cases (chain : Chain) (server : Process) (fd : Received) :
    ((chain.threads server).length < server.maxClients ∧
      chain.handle server fd = chain.startThread server fd) ∨
    (server.maxClients ≤ (chain.threads server).length ∧ ∃ channel,
      server.onward = some channel ∧
      chain.handle server fd = (chain.sendFileDescriptor channel fd).recordForwarded fd) ∨
    (server.maxClients ≤ (chain.threads server).length ∧ server.onward = none ∧
      chain.handle server fd = chain.shutDown server fd) := by
  rcases Nat.lt_or_ge (chain.threads server).length server.maxClients with room | full
  · exact .inl ⟨room, if_neg (not_le.mpr room)⟩
  · right
    rw [Chain.handle, if_pos full]
    cases next : server.onward with
    | some channel => exact .inl ⟨full, channel, rfl, rfl⟩
    | none => exact .inr ⟨full, rfl, rfl⟩

end Handle

section Deliver

variable {chain : Chain} {channel : Channel} {sent : Descriptor}

/-- What a queue and the end of the sender do not change, sending does not change. -/
theorem deliver_keeps {Value : Type*} (observe : Chain → Value)
    (queued : ∀ queue, observe (chain.withQueue channel queue) = observe chain)
    (ended : observe (chain.exited channel.sender) = observe chain) :
    observe (chain.deliver channel sent) = observe chain := by
  rw [Chain.deliver]
  split
  case isTrue => exact queued _
  case isFalse => exact ended

theorem sendFileDescriptor_keeps {Value : Type*} (observe : Chain → Value)
    (queued : ∀ queue, observe (chain.withQueue channel queue) = observe chain)
    (ended : observe (chain.exited channel.sender) = observe chain) (fd : Received) :
    observe (chain.sendFileDescriptor channel fd) = observe chain := by
  cases fd with
  | descriptor sent => exact deliver_keeps observe queued ended
  | failure res =>
      rw [Chain.sendFileDescriptor]
      split
      case isTrue => exact deliver_keeps observe queued ended
      case isFalse => rfl

@[simp]
theorem sendFileDescriptor_threads (fd : Received) :
    (chain.sendFileDescriptor channel fd).threads = chain.threads :=
  sendFileDescriptor_keeps Chain.threads (fun _ => rfl) rfl fd

@[simp]
theorem sendFileDescriptor_signalled (fd : Received) :
    (chain.sendFileDescriptor channel fd).signalled = chain.signalled :=
  sendFileDescriptor_keeps Chain.signalled (fun _ => rfl) rfl fd

@[simp]
theorem sendFileDescriptor_forwarded (fd : Received) :
    (chain.sendFileDescriptor channel fd).forwarded = chain.forwarded :=
  sendFileDescriptor_keeps Chain.forwarded (fun _ => rfl) rfl fd

theorem sendFileDescriptor_queue_of_ne {other : Channel} (different : other ≠ channel)
    (fd : Received) :
    (chain.sendFileDescriptor channel fd).queue other = chain.queue other :=
  sendFileDescriptor_keeps (fun chain => chain.queue other)
    (fun _ => Function.update_of_ne different _ _) rfl fd

/-- Receiving changes nothing but the channel, from which it may take the first message. -/
theorem recvFileDescriptor_cases {outcome : Outcome} {received : Received × Chain}
    (came : chain.recvFileDescriptor channel outcome = some received) :
    (∃ sent rest, outcome = .message ∧ chain.queue channel = sent :: rest ∧
      received = (.descriptor sent, chain.withQueue channel rest)) ∨
    (outcome ≠ .message ∧ ∃ res, received = (.failure res, chain)) := by
  cases outcome with
  | message =>
      rw [Chain.recvFileDescriptor] at came
      split at came
      case h_1 => cases came
      case h_2 sent rest waiting =>
        exact .inl ⟨sent, rest, rfl, waiting, (Option.some.inj came).symm⟩
  | closed =>
      simp only [Chain.recvFileDescriptor, Option.ite_none_right_eq_some,
        Option.some.injEq] at came
      exact .inr ⟨nofun, 0, came.2.symm⟩
  | error => exact .inr ⟨nofun, -1, (Option.some.inj came).symm⟩

theorem recvFileDescriptor_keeps {Value : Type*} (observe : Chain → Value)
    (queued : ∀ queue, observe (chain.withQueue channel queue) = observe chain)
    {outcome : Outcome} {received : Received × Chain}
    (came : chain.recvFileDescriptor channel outcome = some received) :
    observe received.2 = observe chain := by
  rcases recvFileDescriptor_cases came with ⟨_, rest, _, _, rfl⟩ | ⟨_, _, rfl⟩
  · exact queued rest
  · rfl

theorem recvFileDescriptor_threads {outcome : Outcome} {received : Received × Chain}
    (came : chain.recvFileDescriptor channel outcome = some received) :
    received.2.threads = chain.threads :=
  recvFileDescriptor_keeps Chain.threads (fun _ => rfl) came

theorem recvFileDescriptor_queue_le {outcome : Outcome} {received : Received × Chain}
    (came : chain.recvFileDescriptor channel outcome = some received) (other : Channel) :
    (received.2.queue other).length ≤ (chain.queue other).length := by
  rcases recvFileDescriptor_cases came with ⟨sent, rest, _, waiting, rfl⟩ | ⟨_, _, rfl⟩
  · rcases eq_or_ne other channel with rfl | different
    · rw [withQueue_queue_self, waiting]
      exact Nat.le_succ _
    · rw [withQueue_queue_of_ne _ _ different]
  · exact le_refl _

theorem deliver_of_running (running : chain.running channel.receiver = true) :
    chain.deliver channel sent = chain.withQueue channel (chain.queue channel ++ [sent]) :=
  if_pos running

end Deliver

section Step

variable {chain next : Chain}

theorem step_accept {servNo : ℤ} (taken : chain.step (.accept servNo) = some next) :
    (∃ channel, channelOf servNo = some channel ∧
      next = (chain.accepted servNo).sendFileDescriptor channel
        (.descriptor (.client chain.choices.length))) ∨
    (channelOf servNo = none ∧ next = chain.accepted servNo) := by
  simp only [Chain.step, Option.ite_none_right_eq_some] at taken
  rcases taken with ⟨_, taken⟩
  split at taken
  case h_1 channel chosen => exact .inl ⟨channel, chosen, (Option.some.inj taken).symm⟩
  case h_2 other => exact .inr ⟨other, (Option.some.inj taken).symm⟩

theorem step_receive {channel : Channel} {outcome : Outcome}
    (taken : chain.step (.receive channel outcome) = some next) :
    ∃ received, chain.recvFileDescriptor channel outcome = some received ∧
      next = received.2.handle channel.receiver received.1 := by
  simp only [Chain.step, Option.ite_none_right_eq_some, Option.map_eq_some_iff] at taken
  rcases taken with ⟨_, received, came, handled⟩
  exact ⟨received, came, handled.symm⟩

theorem step_exit {process : Process} (taken : chain.step (.exit process) = some next) :
    next = chain.exited process := by
  simp only [Chain.step, Option.ite_none_right_eq_some, Option.some.injEq] at taken
  exact taken.2.symm

end Step

end NetLab.TicketChain
