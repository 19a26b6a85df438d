import NetLab.Systems.Runs
import Mathlib.Logic.Function.Basic

/-!
# Relays

Sources put messages into queues, relays take them out one at a time and pass them to a sink, and a
sink delivers what has been passed to it. Each of them works when it likes. Several relays may share
a sink, and a relay may serve several sources.

What a source sends that only one relay serves is delivered in order: the messages delivered and
those that are on their way are, one behind the other, all that it has sent (`run_line`).
-/

namespace NetLab.Systems

variable {Source Relay Sink Message : Type*}

/-- Where the messages are. Behind the queues each one is kept with its source. -/
structure Traffic (Source Relay Sink Message : Type*) where
  queued : Source → List Message
  held : Relay → Option (Source × Message)
  passed : Sink → List (Source × Message)
  delivered : Sink → List (Source × Message)

inductive Movement (Source Relay Sink Message : Type*) where
  | sends (source : Source) (message : Message)
  | takes (relay : Relay) (source : Source)
  | passes (relay : Relay)
  | delivers (sink : Sink)

/-- The sources that a relay serves, and the sink that it passes their messages to. -/
structure Wiring (Source Relay Sink : Type*) where
  serves : Relay → Source → Bool
  target : Relay → Sink

def Traffic.empty : Traffic Source Relay Sink Message where
  queued _ := []
  held _ := none
  passed _ := []
  delivered _ := []

variable [DecidableEq Source] [DecidableEq Relay] [DecidableEq Sink]

def Wiring.move (wiring : Wiring Source Relay Sink)
    (traffic : Traffic Source Relay Sink Message) :
    Movement Source Relay Sink Message → Option (Traffic Source Relay Sink Message)
  | .sends source message =>
      some { traffic with
        queued := Function.update traffic.queued source (traffic.queued source ++ [message]) }
  | .takes relay source =>
      match wiring.serves relay source, traffic.held relay, traffic.queued source with
      | true, none, message :: rest =>
          some { traffic with
            queued := Function.update traffic.queued source rest
            held := Function.update traffic.held relay (some (source, message)) }
      | _, _, _ => none
  | .passes relay =>
      match traffic.held relay with
      | none => none
      | some item =>
          let sink := wiring.target relay
          some { traffic with
            held := Function.update traffic.held relay none
            passed := Function.update traffic.passed sink (traffic.passed sink ++ [item]) }
  | .delivers sink =>
      match traffic.passed sink with
      | [] => none
      | item :: rest =>
          some { traffic with
            passed := Function.update traffic.passed sink rest
            delivered := Function.update traffic.delivered sink
              (traffic.delivered sink ++ [item]) }

/-- The messages of one source in a list. -/
def messagesOf (source : Source) (items : List (Source × Message)) : List Message :=
  items.filterMap fun item => if item.1 = source then some item.2 else none

/-- What a source has sent. -/
def sentBy (source : Source) (labels : List (Movement Source Relay Sink Message)) :
    List Message :=
  labels.filterMap fun label =>
    match label with
    | .sends sender message => if sender = source then some message else none
    | _ => none

/-- All that is behind a source, from what was delivered first to what was sent last. -/
def Traffic.line (traffic : Traffic Source Relay Sink Message) (relay : Relay) (sink : Sink)
    (source : Source) : List Message :=
  messagesOf source (traffic.delivered sink ++ (traffic.passed sink ++ (traffic.held relay).toList))
    ++ traffic.queued source

/-- A relay holds messages only of sources that it serves. -/
def Wiring.Served (wiring : Wiring Source Relay Sink)
    (traffic : Traffic Source Relay Sink Message) : Prop :=
  ∀ relay item, traffic.held relay = some item → wiring.serves relay item.1 = true

section Items

variable {source other : Source} {message : Message} {items more : List (Source × Message)}

theorem messagesOf_append : messagesOf source (items ++ more) =
    messagesOf source items ++ messagesOf source more :=
  List.filterMap_append

theorem messagesOf_self : messagesOf source [(source, message)] = [message] := by
  simp [messagesOf]

theorem messagesOf_other (apart : other ≠ source) :
    messagesOf source [(other, message)] = [] := by
  simp [messagesOf, apart]

end Items

section Steps

variable {wiring : Wiring Source Relay Sink} {traffic next : Traffic Source Relay Sink Message}
  {source : Source} {message : Message} {relay : Relay} {sink : Sink}

theorem move_takes (taken : wiring.move traffic (.takes relay source) = some next) :
    ∃ message rest, wiring.serves relay source = true ∧ traffic.held relay = none ∧
      traffic.queued source = message :: rest ∧
      next = { traffic with
        queued := Function.update traffic.queued source rest
        held := Function.update traffic.held relay (some (source, message)) } := by
  rw [Wiring.move] at taken
  split at taken
  case h_1 message rest serves held queued =>
    cases taken
    exact ⟨message, rest, serves, held, queued, rfl⟩
  case h_2 => cases taken

theorem move_passes (taken : wiring.move traffic (.passes relay) = some next) :
    ∃ item, traffic.held relay = some item ∧
      next = { traffic with
        held := Function.update traffic.held relay none
        passed := Function.update traffic.passed (wiring.target relay)
          (traffic.passed (wiring.target relay) ++ [item]) } := by
  rw [Wiring.move] at taken
  split at taken
  case h_1 => cases taken
  case h_2 item held =>
    cases taken
    exact ⟨item, held, rfl⟩

theorem move_delivers (taken : wiring.move traffic (.delivers sink) = some next) :
    ∃ item rest, traffic.passed sink = item :: rest ∧
      next = { traffic with
        passed := Function.update traffic.passed sink rest
        delivered := Function.update traffic.delivered sink
          (traffic.delivered sink ++ [item]) } := by
  rw [Wiring.move] at taken
  split at taken
  case h_1 => cases taken
  case h_2 item rest passed =>
    cases taken
    exact ⟨item, rest, passed, rfl⟩

theorem Wiring.Served.move {label : Movement Source Relay Sink Message}
    (served : wiring.Served traffic) (taken : wiring.move traffic label = some next) :
    wiring.Served next := by
  intro other item holds
  cases label with
  | sends source message =>
      cases taken
      exact served other item holds
  | takes relay source =>
      rcases move_takes taken with ⟨message, rest, serves, _, _, rfl⟩
      rcases eq_or_ne other relay with rfl | apart
      · simp only [Function.update_self, Option.some.injEq] at holds
        rw [← holds]
        exact serves
      · simp only [Function.update_of_ne apart] at holds
        exact served other item holds
  | passes relay =>
      rcases move_passes taken with ⟨_, _, rfl⟩
      rcases eq_or_ne other relay with rfl | apart
      · simp only [Function.update_self, reduceCtorEq] at holds
      · simp only [Function.update_of_ne apart] at holds
        exact served other item holds
  | delivers sink =>
      rcases move_delivers taken with ⟨_, _, _, rfl⟩
      exact served other item holds

/-- A step adds to the line of a source what the source sends, and leaves it alone otherwise. -/
theorem line_move {label : Movement Source Relay Sink Message} (served : wiring.Served traffic)
    (alone : ∀ other, wiring.serves other source = true → other = relay)
    (taken : wiring.move traffic label = some next) :
    next.line relay (wiring.target relay) source =
      traffic.line relay (wiring.target relay) source ++ sentBy source [label] := by
  cases label with
  | sends sender message =>
      cases taken
      rcases eq_or_ne sender source with rfl | apart
      · simp [Traffic.line, sentBy]
      · simp [Traffic.line, sentBy, apart, Function.update_of_ne apart.symm]
  | takes taker sender =>
      rcases move_takes taken with ⟨message, rest, serves, held, queued, rfl⟩
      change _ = _ ++ []
      rw [List.append_nil]
      rcases eq_or_ne sender source with rfl | apart
      · rcases alone taker serves with rfl
        simp only [Traffic.line, Function.update_self, held, queued, Option.toList_some,
          Option.toList_none, messagesOf_append, messagesOf_self, List.append_assoc]
        rfl
      · have queue : Function.update traffic.queued sender rest source = traffic.queued source :=
          Function.update_of_ne apart.symm _ _
        rcases eq_or_ne taker relay with rfl | other
        · simp only [Traffic.line, queue, Function.update_self, held, Option.toList_some,
            Option.toList_none, messagesOf_append, messagesOf_other apart]
          rfl
        · simp only [Traffic.line, queue, Function.update_of_ne other.symm]
  | passes passer =>
      rcases move_passes taken with ⟨item, held, rfl⟩
      change _ = _ ++ []
      rw [List.append_nil]
      rcases eq_or_ne passer relay with rfl | other
      · simp only [Traffic.line, Function.update_self, held, Option.toList_some,
          Option.toList_none, List.append_nil]
      · have foreign : item.1 ≠ source := by
          rintro rfl
          exact other (alone passer (served passer item held))
        have hand : Function.update traffic.held passer none relay = traffic.held relay :=
          Function.update_of_ne other.symm _ _
        rcases eq_or_ne (wiring.target passer) (wiring.target relay) with same | elsewhere
        · simp only [Traffic.line, hand, same, Function.update_self, messagesOf_append,
            messagesOf_other foreign, List.append_nil]
        · simp only [Traffic.line, hand, Function.update_of_ne elsewhere.symm]
  | delivers sink =>
      rcases move_delivers taken with ⟨item, rest, passed, rfl⟩
      change _ = _ ++ []
      rw [List.append_nil]
      rcases eq_or_ne sink (wiring.target relay) with rfl | elsewhere
      · simp only [Traffic.line, Function.update_self, passed, List.append_assoc,
          List.cons_append, List.nil_append]
      · simp only [Traffic.line, Function.update_of_ne elsewhere.symm]

/-- Nothing that a source sends is lost, repeated or overtaken, if only one relay serves it. -/
theorem run_line {final : Traffic Source Relay Sink Message}
    {labels : List (Movement Source Relay Sink Message)} (served : wiring.Served traffic)
    (alone : ∀ other, wiring.serves other source = true → other = relay)
    (reached : run wiring.move traffic labels = some final) :
    final.line relay (wiring.target relay) source =
      traffic.line relay (wiring.target relay) source ++ sentBy source labels := by
  induction labels generalizing traffic with
  | nil =>
      cases reached
      exact (List.append_nil _).symm
  | cons label labels ih =>
      rcases run_cons_eq_some.mp reached with ⟨next, taken, rest⟩
      have split : sentBy source (label :: labels) =
          sentBy source [label] ++ sentBy source labels :=
        List.filterMap_append (l := [label])
      rw [ih (served.move taken) rest, line_move served alone taken, split, List.append_assoc]

end Steps

end NetLab.Systems
