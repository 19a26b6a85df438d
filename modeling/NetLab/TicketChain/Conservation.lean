import NetLab.TicketChain.Basic

/-!
# Where the clients of the ticket chain are

As long as no process ends and no `recvmsg` fails, every client that has asked for
one of the three servers is on exactly one channel or has exactly one thread. The
servers never start more threads than they have room for, and a client passes on
only from a full server, for every order of arrivals and of messages.
-/

namespace NetLab.TicketChain

open NetLab.Systems

/-- No process ends by itself, and every `recvmsg` returns with a message. -/
def Event.Orderly : Event → Prop
  | .accept _ => True
  | .receive _ outcome => outcome = .message
  | .exit _ => False

/-- In how many places a client is, counted over all channels and all servers. -/
def Chain.clientCount (chain : Chain) (number : ℕ) : ℕ :=
  occurrences chain.queue (.client number) +
    occurrences chain.threads (.descriptor (.client number))

/-- The client has been accepted and has asked for one of the servers. -/
def Chain.asked (chain : Chain) (number : ℕ) : Bool :=
  (chain.choices[number]?.bind channelOf).isSome

/-- A client leaves a server for the next one only when the server is full, and `e` ends the
system only upon a client that arrives when it is full. -/
structure PassesWhenFull (before : Chain) (event : Event) (after : Chain) : Prop where
  fromC : (before.queue .cToS).length < (after.queue .cToS).length →
    (before.threads .c).length = 1
  fromS : (before.queue .sToE).length < (after.queue .sToE).length →
    (before.threads .s).length = 2
  atE : before.signalled.length < after.signalled.length →
    ∃ channel, event = .receive channel .message ∧ channel.receiver = .e ∧
      (before.threads .e).length = 3

section Step

variable {chain next : Chain} {event : Event}

/-- No server has more threads than it has room for. -/
def Chain.WithinLimits (chain : Chain) : Prop :=
  ∀ server, (chain.threads server).length ≤ server.maxClients

theorem handle_withinLimits (limits : chain.WithinLimits) (server : Process) (fd : Received) :
    (chain.handle server fd).WithinLimits := by
  rcases handle_cases chain server fd with
    ⟨room, handled⟩ | ⟨_, channel, _, handled⟩ | ⟨_, _, handled⟩
  · intro other
    rw [handled]
    rcases eq_or_ne other server with rfl | different
    · rw [startThread_threads_self, List.length_append]
      exact room
    · rw [startThread_threads_of_ne _ _ different]
      exact limits other
  · intro other
    rw [handled, recordForwarded_threads, sendFileDescriptor_threads]
    exact limits other
  · intro other
    rw [handled, shutDown_threads]
    exact limits other

theorem step_withinLimits (limits : chain.WithinLimits) (taken : chain.step event = some next) :
    next.WithinLimits := by
  cases event with
  | accept servNo =>
      rcases step_accept taken with ⟨channel, _, rfl⟩ | ⟨_, rfl⟩
      · intro server
        rw [sendFileDescriptor_threads]
        exact limits server
      · exact limits
  | receive channel outcome =>
      rcases step_receive taken with ⟨received, came, rfl⟩
      apply handle_withinLimits
      rw [Chain.WithinLimits, recvFileDescriptor_threads came]
      exact limits
  | exit process =>
      rw [step_exit taken]
      exact limits

/-- A message from a server to the next one is only sent by a full server. -/
theorem full_of_longer (limits : chain.WithinLimits) (taken : chain.step event = some next)
    {onward : Channel} (between : onward.sender ≠ .tc)
    (longer : (chain.queue onward).length < (next.queue onward).length) :
    (chain.threads onward.sender).length = onward.sender.maxClients := by
  cases event with
  | accept servNo =>
      rcases step_accept taken with ⟨channel, chosen, rfl⟩ | ⟨_, rfl⟩
      · have different : onward ≠ channel := by
          rintro rfl
          exact between (sender_channelOf chosen)
        rw [sendFileDescriptor_queue_of_ne different] at longer
        exact absurd longer (lt_irrefl _)
      · exact absurd longer (lt_irrefl _)
  | receive channel outcome =>
      rcases step_receive taken with ⟨received, came, rfl⟩
      have shorter := recvFileDescriptor_queue_le came onward
      rcases handle_cases received.2 channel.receiver received.1 with
        ⟨_, handled⟩ | ⟨full, passed, next, handled⟩ | ⟨_, _, handled⟩
      · rw [handled, startThread_queue] at longer
        exact absurd shorter (not_le.mpr longer)
      · rw [handled, recordForwarded_queue] at longer
        rcases eq_or_ne onward passed with rfl | different
        · rw [recvFileDescriptor_threads came] at full
          rw [sender_onward next]
          exact le_antisymm (limits channel.receiver) full
        · rw [sendFileDescriptor_queue_of_ne different] at longer
          exact absurd shorter (not_le.mpr longer)
      · rw [handled, shutDown_queue] at longer
        exact absurd shorter (not_le.mpr longer)
  | exit process =>
      rw [step_exit taken] at longer
      exact absurd longer (lt_irrefl _)

/-- The signal is only sent by `e`, upon a value it receives when it is full. -/
theorem full_of_signal (limits : chain.WithinLimits) (taken : chain.step event = some next)
    (signalled : chain.signalled.length < next.signalled.length) :
    ∃ channel outcome, event = .receive channel outcome ∧ channel.receiver = .e ∧
      (chain.threads .e).length = 3 := by
  cases event with
  | accept servNo =>
      rcases step_accept taken with ⟨channel, _, rfl⟩ | ⟨_, rfl⟩
      · rw [sendFileDescriptor_signalled] at signalled
        exact absurd signalled (lt_irrefl _)
      · exact absurd signalled (lt_irrefl _)
  | receive channel outcome =>
      rcases step_receive taken with ⟨received, came, rfl⟩
      refine ⟨channel, outcome, rfl, ?_⟩
      have quiet := recvFileDescriptor_keeps Chain.signalled (fun _ => rfl) came
      rcases handle_cases received.2 channel.receiver received.1 with
        ⟨_, handled⟩ | ⟨_, passed, _, handled⟩ | ⟨full, last, _⟩
      · rw [handled, startThread_signalled, quiet] at signalled
        exact absurd signalled (lt_irrefl _)
      · rw [handled, recordForwarded_signalled, sendFileDescriptor_signalled, quiet] at signalled
        exact absurd signalled (lt_irrefl _)
      · have atE := receiver_of_onward_none last
        rw [recvFileDescriptor_threads came, atE] at full
        exact ⟨atE, le_antisymm (limits .e) full⟩
  | exit process =>
      rw [step_exit taken] at signalled
      exact absurd signalled (lt_irrefl _)

theorem step_passesWhenFull (limits : chain.WithinLimits) (orderly : event.Orderly)
    (taken : chain.step event = some next) : PassesWhenFull chain event next := by
  constructor
  case fromC => exact full_of_longer limits taken nofun
  case fromS => exact full_of_longer limits taken nofun
  case atE =>
    intro signalled
    rcases full_of_signal limits taken signalled with ⟨channel, outcome, rfl, atE, full⟩
    cases orderly
    exact ⟨channel, rfl, atE, full⟩

end Step

section Placed

variable {chain next : Chain} {event : Event}

/-- Every client that has asked for a server is in one place, and no other client is anywhere. -/
def Chain.Conserved (chain : Chain) : Prop :=
  ∀ number, chain.clientCount number = (chain.asked number).toNat

/-- As long as `e` has not ended the system, all processes run and the clients are where they
should be. -/
def Chain.Undisturbed (chain : Chain) : Prop :=
  chain.signalled = [] → (∀ process, chain.running process = true) ∧ chain.Conserved

theorem withQueue_clientCount (chain : Chain) (channel : Channel) (queue : List Descriptor)
    (number : ℕ) :
    (chain.withQueue channel queue).clientCount number +
        (chain.queue channel).count (.client number) =
      chain.clientCount number + queue.count (.client number) := by
  have counted := occurrences_update chain.queue channel queue (.client number)
  simp only [Chain.clientCount, Chain.withQueue]
  omega

theorem startThread_clientCount (server : Process) (sent : Descriptor) (number : ℕ) :
    (chain.startThread server (.descriptor sent)).clientCount number =
      chain.clientCount number + [sent].count (.client number) := by
  have same : [Received.descriptor sent].count (.descriptor (.client number)) =
      [sent].count (.client number) := by
    simp only [List.count_singleton, beq_iff_eq, Received.descriptor.injEq]
  simp only [Chain.clientCount, Chain.startThread, occurrences_push, same]
  omega

theorem deliver_clientCount {channel : Channel} (running : chain.running channel.receiver = true)
    (sent : Descriptor) (number : ℕ) :
    (chain.deliver channel sent).clientCount number =
      chain.clientCount number + [sent].count (.client number) := by
  have counted := withQueue_clientCount chain channel (chain.queue channel ++ [sent]) number
  rw [List.count_append] at counted
  rw [deliver_of_running running]
  omega

theorem deliver_asked {channel : Channel} {sent : Descriptor} (number : ℕ) :
    (chain.deliver channel sent).asked number = chain.asked number :=
  deliver_keeps (fun chain => chain.asked number) (fun _ => rfl) rfl

theorem asked_accepted (servNo : ℤ) (number : ℕ) :
    ((chain.accepted servNo).asked number).toNat = (chain.asked number).toNat +
      if (channelOf servNo).isSome ∧ number = chain.choices.length then 1 else 0 := by
  simp only [Chain.asked, Chain.accepted]
  rcases lt_trichotomy number chain.choices.length with earlier | rfl | later
  · rw [List.getElem?_append_left earlier, if_neg (fun new => earlier.ne new.2), Nat.add_zero]
  · rw [List.getElem?_concat_length, List.getElem?_eq_none (le_refl _)]
    cases chosen : channelOf servNo <;> simp [chosen]
  · rw [List.getElem?_eq_none (by simp; omega), List.getElem?_eq_none later.le,
      if_neg (fun new => later.ne new.2.symm), Nat.add_zero]

theorem popped_clientCount {channel : Channel} {sent : Descriptor} {rest : List Descriptor}
    (waiting : chain.queue channel = sent :: rest) (number : ℕ) :
    (chain.withQueue channel rest).clientCount number + [sent].count (.client number) =
      chain.clientCount number := by
  have counted := withQueue_clientCount chain channel rest number
  rw [waiting, List.count_cons] at counted
  rw [List.count_singleton]
  omega

theorem accept_undisturbed {servNo : ℤ} (undisturbed : chain.Undisturbed)
    (taken : chain.step (.accept servNo) = some next) : next.Undisturbed := by
  intro quiet
  rcases step_accept taken with ⟨channel, chosen, rfl⟩ | ⟨other, rfl⟩
  · rw [sendFileDescriptor_signalled] at quiet
    have ⟨running, conserved⟩ := undisturbed quiet
    have received : (chain.accepted servNo).running channel.receiver = true :=
      running channel.receiver
    refine ⟨?_, fun number => ?_⟩
    · rw [Chain.sendFileDescriptor, deliver_of_running received]
      exact running
    · rw [Chain.sendFileDescriptor, deliver_clientCount received, deliver_asked,
        asked_accepted, ← conserved number, List.count_singleton]
      rcases eq_or_ne number chain.choices.length with rfl | different
      · simp only [chosen, Option.isSome_some, true_and, if_true, beq_self_eq_true]
        rfl
      · simp only [different, and_false, if_false, beq_iff_eq, Descriptor.client.injEq,
          different.symm]
        rfl
  · have ⟨running, conserved⟩ := undisturbed quiet
    refine ⟨running, fun number => ?_⟩
    rw [asked_accepted, ← conserved number, other]
    rfl

theorem receive_undisturbed {channel : Channel} (undisturbed : chain.Undisturbed)
    (taken : chain.step (.receive channel .message) = some next) : next.Undisturbed := by
  intro quiet
  rcases step_receive taken with ⟨received, came, rfl⟩
  rcases recvFileDescriptor_cases came with ⟨sent, rest, _, waiting, rfl⟩ | ⟨impossible, _⟩
  · have popped := popped_clientCount waiting
    rcases handle_cases (chain.withQueue channel rest) channel.receiver (.descriptor sent) with
      ⟨_, handled⟩ | ⟨_, passed, _, handled⟩ | ⟨_, _, handled⟩
    · rw [handled] at quiet ⊢
      rcases undisturbed quiet with ⟨running, conserved⟩
      refine ⟨running, fun number => ?_⟩
      rw [startThread_clientCount, popped]
      exact conserved number
    · rw [handled] at quiet ⊢
      rw [recordForwarded_signalled, sendFileDescriptor_signalled] at quiet
      rcases undisturbed quiet with ⟨running, conserved⟩
      have open_end : (chain.withQueue channel rest).running passed.receiver = true :=
        running passed.receiver
      refine ⟨?_, fun number => ?_⟩
      · rw [Chain.sendFileDescriptor, deliver_of_running open_end]
        exact running
      · calc ((chain.withQueue channel rest).deliver passed sent).clientCount number
            = chain.clientCount number := by rw [deliver_clientCount open_end, popped]
          _ = (chain.asked number).toNat := conserved number
          _ = (((chain.withQueue channel rest).deliver passed sent).asked number).toNat := by
              rw [deliver_asked]
              rfl
    · rw [handled] at quiet
      exact absurd quiet (List.append_ne_nil_of_right_ne_nil _ (List.cons_ne_nil _ _))
  · exact absurd rfl impossible

theorem step_undisturbed (undisturbed : chain.Undisturbed) (orderly : event.Orderly)
    (taken : chain.step event = some next) : next.Undisturbed := by
  cases event with
  | accept servNo => exact accept_undisturbed undisturbed taken
  | receive channel outcome =>
      cases orderly
      exact receive_undisturbed undisturbed taken
  | exit process => cases orderly

theorem undisturbed_initial : Chain.initial.Undisturbed := by
  intro _
  refine ⟨fun _ => rfl, fun number => ?_⟩
  simp [Chain.clientCount, Chain.asked, Chain.initial, occurrences]

end Placed

/-- In every run without a process that ends early or a `recvmsg` that fails, servers pass on and
`e` signals only when they are full, no server has more threads than it has room for, and until
`e` ends the system, every client that has asked for a server is in exactly one place. -/
theorem clients_conserved (events : List Event) (chain : Chain)
    (orderly : ∀ event ∈ events, event.Orderly)
    (reached : run Chain.step Chain.initial events = some chain) :
    EveryStep Chain.step PassesWhenFull Chain.initial events ∧ chain.WithinLimits ∧
      (chain.signalled = [] → chain.Conserved) := by
  have every : EveryStep Chain.step (fun _ event _ => event.Orderly) Chain.initial events :=
    everyStep_of_mem fun event listed _ _ _ => orderly event listed
  have limits_initial : Chain.initial.WithinLimits := fun server => Nat.zero_le _
  refine ⟨?_, ?_, ?_⟩
  · apply every.imp Chain.WithinLimits limits_initial
    intro before event after limits taken held
    exact ⟨step_passesWhenFull limits held taken, step_withinLimits limits taken⟩
  · apply every.invariant Chain.WithinLimits limits_initial _ reached
    exact fun before event after limits taken _ => step_withinLimits limits taken
  · have undisturbed : chain.Undisturbed := by
      apply every.invariant Chain.Undisturbed undisturbed_initial _ reached
      exact fun before event after kept taken held => step_undisturbed kept held taken
    exact fun quiet => (undisturbed quiet).2

section Samples

/-- Two clients ask for `c`: the first one stays, the second one is passed on to `s`. -/
def twoForC : List Event :=
  [.accept 1, .accept 1, .receive .tcToC .message, .receive .tcToC .message,
    .receive .cToS .message]

end Samples

/-- The second of two clients for `c` has a thread of `s`, and each is in one place. -/
theorem clients_conserved_two : ∃ chain, run Chain.step Chain.initial twoForC = some chain ∧
    chain.threads .s = [.descriptor (.client 1)] ∧ chain.Conserved := by
  refine ⟨_, rfl, rfl, ?_⟩
  exact (clients_conserved twoForC _ (by simp [twoForC, Event.Orderly]) rfl).2.2 rfl

end NetLab.TicketChain
