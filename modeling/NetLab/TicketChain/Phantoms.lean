import NetLab.TicketChain.Basic

/-!
# Values that are not clients

When a process ends, `recv_file_descriptor` returns 0 or -1 to the servers that
read from it, and their loops use these values like descriptors. This happens in
every round that receives no message, except in `e` when it is full: it ends the
system without looking at the value.
-/

namespace NetLab.TicketChain

open NetLab.Systems

/-- The value came in a message. -/
def Received.Genuine : Received → Prop
  | .descriptor _ => True
  | .failure _ => False

/-- Every value that a server has started a thread for or passed on came in a message. -/
structure Chain.NoPhantoms (chain : Chain) : Prop where
  threads : ∀ server, ∀ fd ∈ chain.threads server, fd.Genuine
  forwarded : ∀ fd ∈ chain.forwarded, fd.Genuine

/-- A round of a server receives a message, or it is one of `e` when it is full. -/
def ReceivesMessage (before : Chain) (event : Event) (_ : Chain) : Prop :=
  match event with
  | .receive channel outcome =>
      outcome = .message ∨ channel.receiver = .e ∧ 3 ≤ (before.threads .e).length
  | .accept _ | .exit _ => True

section Step

variable {chain next : Chain} {channel : Channel}

theorem noPhantoms_congr {other : Chain} (threads : next.threads = other.threads)
    (forwarded : next.forwarded = other.forwarded) : next.NoPhantoms ↔ other.NoPhantoms := by
  constructor
  · exact fun genuine => ⟨threads ▸ genuine.threads, forwarded ▸ genuine.forwarded⟩
  · exact fun genuine => ⟨threads ▸ genuine.threads, forwarded ▸ genuine.forwarded⟩

theorem startThread_noPhantoms_iff (server : Process) (fd : Received) :
    (chain.startThread server fd).NoPhantoms ↔ chain.NoPhantoms ∧ fd.Genuine := by
  constructor
  · intro genuine
    have ofServer := genuine.threads server
    rw [startThread_threads_self, List.forall_mem_append, List.forall_mem_singleton] at ofServer
    refine ⟨⟨fun other => ?_, genuine.forwarded⟩, ofServer.2⟩
    rcases eq_or_ne other server with rfl | different
    · exact ofServer.1
    · have ofOther := genuine.threads other
      rw [startThread_threads_of_ne _ _ different] at ofOther
      exact ofOther
  · rintro ⟨genuine, added⟩
    refine ⟨fun other => ?_, genuine.forwarded⟩
    rcases eq_or_ne other server with rfl | different
    · rw [startThread_threads_self, List.forall_mem_append, List.forall_mem_singleton]
      exact ⟨genuine.threads other, added⟩
    · rw [startThread_threads_of_ne _ _ different]
      exact genuine.threads other

theorem recordForwarded_noPhantoms_iff (fd : Received) :
    (chain.recordForwarded fd).NoPhantoms ↔ chain.NoPhantoms ∧ fd.Genuine := by
  have records : (∀ other ∈ (chain.recordForwarded fd).forwarded, other.Genuine) ↔
      (∀ other ∈ chain.forwarded, other.Genuine) ∧ fd.Genuine := by
    rw [Chain.recordForwarded, List.forall_mem_append, List.forall_mem_singleton]
  constructor
  · intro genuine
    have ⟨earlier, added⟩ := records.mp genuine.forwarded
    exact ⟨⟨genuine.threads, earlier⟩, added⟩
  · rintro ⟨genuine, added⟩
    exact ⟨genuine.threads, records.mpr ⟨genuine.forwarded, added⟩⟩

theorem sendFileDescriptor_noPhantoms_iff (fd : Received) :
    (chain.sendFileDescriptor channel fd).NoPhantoms ↔ chain.NoPhantoms :=
  noPhantoms_congr (sendFileDescriptor_threads fd) (sendFileDescriptor_forwarded fd)

/-- A value of a full `e` is not used; of all others, every one is. -/
theorem handle_noPhantoms_iff (fd : Received) :
    (chain.handle channel.receiver fd).NoPhantoms ↔ chain.NoPhantoms ∧
      (fd.Genuine ∨ channel.receiver = .e ∧ 3 ≤ (chain.threads .e).length) := by
  rcases handle_cases chain channel.receiver fd with
    ⟨room, handled⟩ | ⟨_, passed, next, handled⟩ | ⟨full, last, handled⟩
  · have notFull : ¬ (channel.receiver = .e ∧ 3 ≤ (chain.threads .e).length) := by
      rintro ⟨atE, full⟩
      rw [atE] at room
      exact absurd full (not_le.mpr room)
    rw [handled, startThread_noPhantoms_iff, or_iff_left notFull]
  · have notE : ¬ (channel.receiver = .e ∧ 3 ≤ (chain.threads .e).length) := by
      rintro ⟨atE, _⟩
      rw [atE] at next
      cases next
    rw [handled, recordForwarded_noPhantoms_iff, sendFileDescriptor_noPhantoms_iff,
      or_iff_left notE]
  · have atE := receiver_of_onward_none last
    rw [atE] at full
    rw [handled, or_iff_right_of_imp fun _ => ⟨atE, full⟩, and_iff_left ⟨atE, full⟩]
    exact noPhantoms_congr rfl rfl

theorem step_noPhantoms_iff {event : Event} (taken : chain.step event = some next) :
    next.NoPhantoms ↔ chain.NoPhantoms ∧ ReceivesMessage chain event next := by
  cases event with
  | accept servNo =>
      rw [ReceivesMessage, and_true]
      rcases step_accept taken with ⟨channel, _, rfl⟩ | ⟨_, rfl⟩
      · rw [sendFileDescriptor_noPhantoms_iff]
        exact noPhantoms_congr rfl rfl
      · exact noPhantoms_congr rfl rfl
  | receive channel outcome =>
      rcases step_receive taken with ⟨received, came, rfl⟩
      rw [handle_noPhantoms_iff]
      rcases recvFileDescriptor_cases came with ⟨sent, rest, rfl, _, rfl⟩ | ⟨failed, res, rfl⟩
      · simp only [ReceivesMessage, Received.Genuine, true_or, and_true]
        exact noPhantoms_congr rfl rfl
      · simp only [ReceivesMessage, Received.Genuine, failed, false_or]
  | exit process =>
      rw [step_exit taken, ReceivesMessage, and_true]
      exact noPhantoms_congr rfl rfl

end Step

/-- In a run of the ticket chain, with processes ending and calls failing at any point, no value
that did not come in a message is served or passed on exactly when every round of a server
receives a message, or is one of `e` when it is full. -/
theorem noPhantoms_iff (events : List Event) (chain : Chain)
    (reached : run Chain.step Chain.initial events = some chain) :
    chain.NoPhantoms ↔ EveryStep Chain.step ReceivesMessage Chain.initial events := by
  have genuine_initial : Chain.initial.NoPhantoms := ⟨fun _ => nofun, nofun⟩
  have final : chain.NoPhantoms ↔ Chain.initial.NoPhantoms ∧
      EveryStep Chain.step ReceivesMessage Chain.initial events := by
    apply good_final_iff (fun _ => True) Chain.NoPhantoms trivial _ reached
    exact fun before event after _ taken => ⟨trivial, step_noPhantoms_iff taken⟩
  rw [final, and_iff_right genuine_initial]

/-- A client that `c` serves is not a phantom, and that `tc` has ended then makes none. -/
theorem noPhantoms_served : ∃ chain, run Chain.step Chain.initial
      [.accept 1, .receive .tcToC .message, .exit .tc] = some chain ∧ chain.NoPhantoms := by
  refine ⟨_, rfl, (noPhantoms_iff [.accept 1, .receive .tcToC .message, .exit .tc] _ rfl).mpr ?_⟩
  refine fun _ _ => ⟨trivial, fun _ _ => ⟨.inl rfl, fun _ _ => ⟨trivial, everyStep_nil⟩⟩⟩

/-- When `tc` has ended, `c` starts a thread for the value 0. -/
theorem phantom_after_exit : ∃ chain, run Chain.step Chain.initial
      [.exit .tc, .receive .tcToC .closed] = some chain ∧
    chain.threads .c = [.failure 0] ∧ ¬ chain.NoPhantoms := by
  refine ⟨_, rfl, rfl, fun genuine => ?_⟩
  exact genuine.threads .c (.failure 0) List.mem_cons_self

end NetLab.TicketChain
