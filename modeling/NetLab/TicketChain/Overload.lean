import NetLab.TicketChain.Conservation

/-!
# The load of the ticket chain

The servers of `csemulti` serve one, two and three clients, and what is too much for one is the next
one's. Which clients are served where depends on the order in which messages arrive, but not how
many are.
-/

namespace NetLab.TicketChain

open NetLab.Systems

/-- How many clients have asked for `e` or come to it from the others. -/
def demand (choices : List ℤ) : ℕ :=
  choices.count 3 + (choices.count 2 + (choices.count 1 - 1) - 2)

/-- The clients that have asked for each server and those that the one before has passed on are
under way to it, served, or passed on. -/
structure Flows (chain : Chain) (passedC passedS : ℕ) : Prop where
  running : ∀ process, chain.running process = true
  limits : chain.WithinLimits
  atC : (chain.queue .tcToC).length + (chain.threads .c).length + passedC = chain.choices.count 1
  atS : (chain.queue .tcToS).length + (chain.queue .cToS).length + (chain.threads .s).length +
    passedS = chain.choices.count 2 + passedC
  atE : (chain.queue .tcToE).length + (chain.queue .sToE).length + (chain.threads .e).length =
    chain.choices.count 3 + passedS
  fullC : 0 < passedC → (chain.threads .c).length = 1
  fullS : 0 < passedS → (chain.threads .s).length = 2

/-- `e` has ended `tc`, and rightly so. -/
structure Overloaded (chain : Chain) : Prop where
  signalled : chain.signalled ≠ []
  ended : chain.running .tc = false
  demand : 3 < demand chain.choices

def Governed (chain : Chain) : Prop :=
  chain.signalled = [] ∧ (∃ passedC passedS, Flows chain passedC passedS) ∨ Overloaded chain

section Step

variable {chain next : Chain} {event : Event} {channel : Channel} {passedC passedS : ℕ}

theorem flows_initial : Flows Chain.initial 0 0 := by
  constructor
  case running => exact fun _ => rfl
  case limits => exact fun server => Nat.zero_le _
  case fullC | fullS => exact fun some => absurd some (lt_irrefl 0)
  all_goals rfl

theorem Flows.accept {servNo : ℤ} (flows : Flows chain passedC passedS)
    (taken : chain.step (.accept servNo) = some next) : Flows next passedC passedS := by
  have limits := step_withinLimits flows.limits taken
  rcases flows with ⟨running, _, atC, atS, atE, fullC, fullS⟩
  rcases step_accept taken with ⟨channel, chosen, rfl⟩ | ⟨other, rfl⟩
  · have received : (chain.accepted servNo).running channel.receiver = true :=
      running channel.receiver
    rw [Chain.sendFileDescriptor, deliver_of_running received] at limits ⊢
    simp only [channelOf] at chosen
    split_ifs at chosen with first second third
    all_goals
      cases chosen
      subst servNo
      refine ⟨running, limits, ?_, ?_, ?_, fullC, fullS⟩
    all_goals
      simp [Chain.withQueue, Chain.accepted]
      omega
  · simp only [channelOf] at other
    split_ifs at other with first second third
    refine ⟨running, limits, ?_, ?_, ?_, fullC, fullS⟩
    all_goals
      simp [Chain.accepted, List.count_append, first, second, third]
      omega

/-- A server starts a thread. -/
theorem Flows.starts {sent : Descriptor} {rest : List Descriptor}
    (flows : Flows chain passedC passedS) (waiting : chain.queue channel = sent :: rest)
    (room : (chain.threads channel.receiver).length < channel.receiver.maxClients)
    (limits : ((chain.withQueue channel rest).startThread channel.receiver
      (.descriptor sent)).WithinLimits) :
    Flows ((chain.withQueue channel rest).startThread channel.receiver (.descriptor sent))
      passedC passedS := by
  rcases flows with ⟨running, _, atC, atS, atE, fullC, fullS⟩
  have length := congrArg List.length waiting
  refine ⟨running, limits, ?_, ?_, ?_, ?_, ?_⟩
  all_goals
    cases channel
    all_goals
      simp only [Channel.receiver, Process.maxClients, List.length_cons] at room length
      simp only [Chain.withQueue, Chain.startThread, Channel.receiver, Function.update_apply,
        reduceCtorEq, if_true, if_false, List.length_append, List.length_singleton]
      omega

/-- `c` and `s` pass a client on. -/
theorem Flows.passes {sent : Descriptor} {rest : List Descriptor} {onward : Channel}
    (flows : Flows chain passedC passedS) (waiting : chain.queue channel = sent :: rest)
    (full : channel.receiver.maxClients ≤ (chain.threads channel.receiver).length)
    (next : channel.receiver.onward = some onward) :
    ∃ laterC laterS, Flows (((chain.withQueue channel rest).withQueue onward
      ((chain.withQueue channel rest).queue onward ++ [sent])).recordForwarded
        (.descriptor sent)) laterC laterS := by
  have limits := flows.limits
  have within := flows.limits channel.receiver
  rcases flows with ⟨running, _, atC, atS, atE, fullC, fullS⟩
  have length := congrArg List.length waiting
  cases channel
  case tcToC =>
    cases next
    refine ⟨passedC + 1, passedS, running, limits, ?_, ?_, ?_, ?_, fullS⟩
    all_goals
      simp [Chain.withQueue, Chain.recordForwarded, Channel.receiver, Process.maxClients]
        at full within length ⊢
      omega
  case tcToS | cToS =>
    cases next
    refine ⟨passedC, passedS + 1, running, limits, ?_, ?_, ?_, fullC, ?_⟩
    all_goals
      simp [Chain.withQueue, Chain.recordForwarded, Channel.receiver, Process.maxClients]
        at full within length ⊢
      omega
  case tcToE | sToE => cases next

/-- A client that reaches `e` when it is full is one too many. -/
theorem Flows.demand (flows : Flows chain passedC passedS) {sent : Descriptor}
    {rest : List Descriptor} (waiting : chain.queue channel = sent :: rest)
    (last : channel.receiver = .e) (full : 3 ≤ (chain.threads .e).length) :
    3 < demand chain.choices := by
  have atE := flows.atE
  have fullC := flows.fullC
  have fullS := flows.fullS
  have atC := flows.atC
  have atS := flows.atS
  have length := congrArg List.length waiting
  rw [List.length_cons] at length
  have more : 3 < chain.choices.count 3 + passedS := by
    cases channel <;> cases last <;> omega
  rw [TicketChain.demand]
  omega

theorem Flows.receive (flows : Flows chain passedC passedS) (quiet : chain.signalled = [])
    (taken : chain.step (.receive channel .message) = some next) : Governed next := by
  have limits := step_withinLimits flows.limits taken
  rcases step_receive taken with ⟨received, came, rfl⟩
  rcases recvFileDescriptor_cases came with ⟨sent, rest, _, waiting, rfl⟩ | ⟨impossible, _⟩
  · rcases handle_cases (chain.withQueue channel rest) channel.receiver (.descriptor sent) with
      ⟨room, handled⟩ | ⟨full, onward, next, handled⟩ | ⟨full, last, handled⟩
    all_goals rw [handled] at limits ⊢
    · exact Or.inl ⟨quiet, passedC, passedS, flows.starts waiting room limits⟩
    · refine Or.inl ⟨(sendFileDescriptor_signalled _).trans quiet, ?_⟩
      have received : (chain.withQueue channel rest).running onward.receiver = true :=
        flows.running onward.receiver
      rw [Chain.sendFileDescriptor, deliver_of_running received]
      exact flows.passes waiting full next
    · refine Or.inr ⟨List.append_ne_nil_of_right_ne_nil _ (List.cons_ne_nil _ _), ?_, ?_⟩
      · have isE := receiver_of_onward_none last
        rw [isE]
        rfl
      · have isE := receiver_of_onward_none last
        rw [isE] at full
        exact flows.demand waiting isE full
  · exact absurd rfl impossible

end Step

section Overloaded

variable {chain next : Chain} {event : Event}

theorem sendFileDescriptor_ended {channel : Channel} {process : Process}
    (ended : chain.running process = false) (fd : Received) :
    (chain.sendFileDescriptor channel fd).running process = false := by
  have still : (chain.exited channel.sender).running process = chain.running process := by
    simp only [Chain.exited, Function.update_apply]
    split_ifs
    · exact ended.symm
    · rfl
  exact (sendFileDescriptor_keeps (fun chain => chain.running process) (fun _ => rfl) still
    fd).trans ended

theorem Overloaded.step (overloaded : Overloaded chain) (orderly : event.Orderly)
    (taken : chain.step event = some next) : Overloaded next := by
  rcases overloaded with ⟨signalled, ended, demand⟩
  cases event with
  | accept servNo =>
      rw [Chain.step, ended] at taken
      cases taken
  | receive channel outcome =>
      rcases step_receive taken with ⟨received, came, rfl⟩
      have same := recvFileDescriptor_keeps
        (fun chain => (chain.signalled, chain.running, chain.choices)) (fun _ => rfl) came
      simp only [Prod.mk.injEq] at same
      rcases same with ⟨sameSignalled, sameRunning, sameChoices⟩
      rcases handle_cases received.2 channel.receiver received.1 with
        ⟨_, handled⟩ | ⟨_, onward, _, handled⟩ | ⟨_, _, handled⟩
      all_goals rw [handled]
      · exact ⟨sameSignalled ▸ signalled, sameRunning ▸ ended, sameChoices ▸ demand⟩
      · refine ⟨?_, ?_, ?_⟩
        · rw [recordForwarded_signalled, sendFileDescriptor_signalled, sameSignalled]
          exact signalled
        · exact sendFileDescriptor_ended (sameRunning ▸ ended) received.1
        · have choices : (received.2.sendFileDescriptor onward received.1).choices =
              received.2.choices :=
            sendFileDescriptor_keeps Chain.choices (fun _ => rfl) rfl received.1
          rw [Chain.recordForwarded, choices, sameChoices]
          exact demand
      · refine ⟨List.append_ne_nil_of_right_ne_nil _ (List.cons_ne_nil _ _), ?_, ?_⟩
        · simp [Chain.shutDown, Function.update_apply]
        · exact sameChoices ▸ demand
  | exit process => cases orderly

end Overloaded

/-- Of the clients that have asked for the servers so far, each server has its fill when nothing is
under way; and `e` ends the system only when there are more than the servers can serve. -/
theorem served_by_demand {events : List Event} {chain : Chain}
    (orderly : ∀ event ∈ events, event.Orderly)
    (reached : run Chain.step Chain.initial events = some chain) :
    (chain.signalled = [] → (∀ channel, chain.queue channel = []) →
      (chain.threads .c).length = min (chain.choices.count 1) 1 ∧
      (chain.threads .s).length = min (chain.choices.count 2 + (chain.choices.count 1 - 1)) 2 ∧
      (chain.threads .e).length = demand chain.choices ∧ demand chain.choices ≤ 3) ∧
    (chain.signalled ≠ [] → 3 < demand chain.choices) := by
  have every : EveryStep Chain.step (fun _ event _ => event.Orderly) Chain.initial events :=
    everyStep_of_mem fun event listed _ _ _ => orderly event listed
  have governed : Governed chain := by
    apply every.invariant Governed (Or.inl ⟨rfl, 0, 0, flows_initial⟩) _ reached
    rintro before event after (⟨quiet, passedC, passedS, flows⟩ | overloaded) taken held
    · cases event with
      | accept servNo =>
          refine Or.inl ⟨?_, passedC, passedS, flows.accept taken⟩
          rcases step_accept taken with ⟨channel, _, rfl⟩ | ⟨_, rfl⟩
          · exact (sendFileDescriptor_signalled _).trans quiet
          · exact quiet
      | receive channel outcome =>
          cases held
          exact flows.receive quiet taken
      | exit process => cases held
    · exact Or.inr (overloaded.step held taken)
  rcases governed with ⟨quiet, passedC, passedS, flows⟩ | overloaded
  · refine ⟨fun _ drained => ?_, fun signalled => absurd quiet signalled⟩
    have atC := flows.atC
    have atS := flows.atS
    have atE := flows.atE
    have fullC := flows.fullC
    have fullS := flows.fullS
    have ofC : (chain.threads .c).length ≤ 1 := flows.limits .c
    have ofS : (chain.threads .s).length ≤ 2 := flows.limits .s
    have ofE : (chain.threads .e).length ≤ 3 := flows.limits .e
    simp only [drained, List.length_nil] at atC atS atE
    rw [demand]
    omega
  · exact ⟨fun quiet => absurd quiet overloaded.signalled, fun _ => overloaded.demand⟩

theorem served_by_demand_two : ∃ chain, run Chain.step Chain.initial twoForC = some chain ∧
    (chain.threads .s).length = min (chain.choices.count 2 + (chain.choices.count 1 - 1)) 2 := by
  refine ⟨_, rfl, ?_⟩
  have counts := @served_by_demand twoForC _ (by simp [twoForC, Event.Orderly]) rfl
  exact (counts.1 rfl (by decide)).2.1

end NetLab.TicketChain
