import NetLab.ServiceServer.Basic
import NetLab.Systems.Runs

/-!
# Requests on the shared fifo

All clients write their requests to one fifo, a stream of bytes. The reader of the
main server takes up to 100 of them at a time and compares what it has read, up to
the first zero, with a single request; the writer answers when the reader has set
its flag. Reader and writer act in any order, and so do the clients.

Bytes are never lost, but a read that takes more than one request sets the flag at
most once, and so does a second read before the writer has seen the flag. What is
lost so is made up for by nothing later, which gives the exact condition.
-/

namespace NetLab.ServiceServer

open NetLab.Posix NetLab.Systems

/-- The bytes of a request on the fifo, with the zero that ends them. -/
def requestBytes : List Byte :=
  Client.request ++ [0#8]

/-- The main server with the fifo it reads from, and what was written at either end: how many
requests, and which assignments. -/
structure Traffic where
  stream : List Byte
  buf : Vector Byte 100
  server : MainServer
  sent : ℕ
  assignments : List (List Byte)

/-- The reader's buffer holds what the stack held. -/
def Traffic.initial (number : ℕ) (buf : Vector Byte 100) : Traffic where
  stream := []
  buf
  server := MainServer.initial number
  sent := 0
  assignments := []

inductive Action where
  | request (client : ℕ)
  | read
  | write
deriving DecidableEq, Repr

/-- A client writes its request, or one of the threads of the main server makes a round. On an
empty fifo the reader waits. The string in `buf` ends inside it, because a read that fills it has
read the end of a request. -/
def Traffic.step (traffic : Traffic) : Action → Option Traffic
  | .request _ =>
      some { traffic with stream := traffic.stream ++ requestBytes, sent := traffic.sent + 1 }
  | .read =>
      if traffic.stream = [] then none
      else
        let buf := storePrefix (traffic.stream.take 100) traffic.buf
        some { traffic with
          stream := traffic.stream.drop 100
          buf
          server := traffic.server.threadRead (cString buf.toList) }
  | .write =>
      let (message, server) := traffic.server.threadWrite
      some { traffic with server, assignments := traffic.assignments ++ message.toList }

/-- Nothing is on the fifo, and the writer has nothing to do. -/
def Traffic.Quiet (traffic : Traffic) : Prop :=
  traffic.stream = [] ∧ traffic.server.gotserver = 0

/-- A round of the reader finds one request and no more on the fifo, and the flag is down. -/
def ReadsOne (before : Traffic) (action : Action) (_ : Traffic) : Prop :=
  action = .read → before.stream.length = 7 ∧ before.server.gotserver = 0

section Stream

variable {stream : List Byte} {sent : ℕ}

@[simp]
theorem length_requestBytes : requestBytes.length = 7 :=
  rfl

/-- The ends of a request are shorter and begin differently. -/
theorem suffix_requestBytes {front : List Byte} (suffix : front <:+ requestBytes) :
    front = [] ∨ front = requestBytes ∨
      (¬ 7 ∣ front.length ∧ ∃ byte rest, front = byte :: rest ∧ byte ≠ 0x73#8) := by
  have listed : front ∈ requestBytes.tails := (List.mem_tails _ _).mpr suffix
  have tails : requestBytes.tails = [requestBytes, literal "erver" ++ [0#8],
    literal "rver" ++ [0#8], literal "ver" ++ [0#8], literal "er" ++ [0#8],
    literal "r" ++ [0#8], [0#8], []] := rfl
  rw [tails] at listed
  simp only [List.mem_cons, List.not_mem_nil, or_false] at listed
  rcases listed with rfl | rfl | rfl | rfl | rfl | rfl | rfl | rfl
  · exact .inr (.inl rfl)
  case inr.inr.inr.inr.inr.inr.inr => exact .inl rfl
  all_goals exact .inr (.inr ⟨by decide, _, _, rfl, by decide⟩)

/-- What is left of whole requests begins with one of them, or in the middle of one. -/
theorem suffix_requests (suffix : stream <:+ (List.replicate sent requestBytes).flatten)
    (nonempty : stream ≠ []) :
    (7 ∣ stream.length ∧ ∃ rest, stream = requestBytes ++ rest) ∨
    (¬ 7 ∣ stream.length ∧ ∃ byte rest, stream = byte :: rest ∧ byte ≠ 0x73#8) := by
  induction sent with
  | zero => exact absurd (List.suffix_nil.mp suffix) nonempty
  | succ sent ih =>
      rw [List.replicate_succ, List.flatten_cons] at suffix
      have later := List.suffix_append requestBytes (List.replicate sent requestBytes).flatten
      have whole : (List.replicate sent requestBytes).flatten.length = sent * 7 := by
        simp
      rcases Nat.le_total stream.length (List.replicate sent requestBytes).flatten.length with
        short | long
      · exact ih (List.suffix_of_suffix_length_le suffix later short)
      · rcases List.suffix_of_suffix_length_le later suffix long with ⟨front, rfl⟩
        have same : 7 ∣ (front ++ (List.replicate sent requestBytes).flatten).length ↔
            7 ∣ front.length := by
          rw [List.length_append, whole, Nat.dvd_add_left (Nat.dvd_mul_left 7 sent)]
        rcases suffix_requestBytes ((List.suffix_append_self_iff).mp suffix) with
          rfl | rfl | ⟨uneven, byte, rest, rfl, other⟩
        · exact ih (List.suffix_refl _)
        · exact .inl ⟨same.mpr (by decide), _, rfl⟩
        · exact .inr ⟨same.not.mpr uneven, byte, _, rfl, other⟩

/-- The reader takes what it has read for a request exactly when the fifo begins with one. -/
theorem cString_read (suffix : stream <:+ (List.replicate sent requestBytes).flatten)
    (nonempty : stream ≠ []) (buf : Vector Byte 100) :
    cString (storePrefix (stream.take 100) buf).toList = Client.request ↔
      7 ∣ stream.length := by
  rw [toList_storePrefix (List.length_take_le 100 stream)]
  rcases suffix_requests suffix nonempty with ⟨even, rest, rfl⟩ | ⟨uneven, byte, rest, rfl, other⟩
  · refine iff_of_true ?_ even
    rw [List.take_append, List.take_of_length_le (by decide : requestBytes.length ≤ 100),
      List.append_assoc, cString_append_of_mem (by decide)]
    rfl
  · refine iff_of_false ?_ uneven
    rw [List.take_succ_cons, List.cons_append]
    rcases eq_or_ne byte 0#8 with rfl | nonzero
    · rw [cString_zero_cons]
      exact nofun
    · rw [cString_cons nonzero]
      exact fun same => other (List.cons.inj same).1

end Stream

/-- What always holds of the traffic: the fifo is what is left of the requests sent, and what was
answered or noticed and what waits there is no more than what was sent. -/
structure TrafficInvariant (traffic : Traffic) : Prop where
  suffix : traffic.stream <:+ (List.replicate traffic.sent requestBytes).flatten
  flag : traffic.server.gotserver = 0 ∨ traffic.server.gotserver = 1
  bounded : 7 * (traffic.assignments.length + traffic.server.gotserver) + traffic.stream.length ≤
    7 * traffic.sent

/-- No request was lost so far. -/
def Balanced (traffic : Traffic) : Prop :=
  7 * (traffic.assignments.length + traffic.server.gotserver) + traffic.stream.length =
    7 * (traffic.sent : ℤ)

section Steps

variable {traffic next : Traffic}

theorem trafficInvariant_initial (number : ℕ) (buf : Vector Byte 100) :
    TrafficInvariant (Traffic.initial number buf) := by
  constructor
  case suffix => exact List.suffix_refl _
  case flag => exact .inl rfl
  case bounded => exact le_refl _

theorem gotserver_threadRead (server : MainServer) (text : List Byte) :
    (server.threadRead text).gotserver =
      if text = Client.request then 1 else server.gotserver := by
  rw [MainServer.threadRead, Client.request]
  split
  case isTrue => rfl
  case isFalse =>
    dsimp only
    split
    case isTrue => rfl
    case isFalse => rfl

theorem threadWrite_flag (server : MainServer)
    (flag : server.gotserver = 0 ∨ server.gotserver = 1) :
    server.threadWrite.2.gotserver = 0 ∧
      (server.threadWrite.1.toList.length : ℤ) = server.gotserver := by
  rcases flag with down | up
  · simp [MainServer.threadWrite, down]
  · simp [MainServer.threadWrite, up]

theorem step_request (client : ℕ) (invariant : TrafficInvariant traffic)
    (taken : traffic.step (.request client) = some next) :
    TrafficInvariant next ∧ (Balanced next ↔ Balanced traffic) := by
  cases taken
  have longer : ((traffic.stream ++ requestBytes).length : ℤ) = traffic.stream.length + 7 := by
    simp
  constructor
  · constructor
    case suffix =>
      rw [List.replicate_succ', List.flatten_append, List.flatten_singleton]
      exact List.suffix_append_self_iff.mpr invariant.suffix
    case flag => exact invariant.flag
    case bounded =>
      have bounded := invariant.bounded
      rw [longer]
      push_cast
      omega
  · simp only [Balanced, longer]
    push_cast
    omega

theorem step_read (invariant : TrafficInvariant traffic)
    (taken : traffic.step .read = some next) :
    TrafficInvariant next ∧ (Balanced next ↔ Balanced traffic ∧
      traffic.stream.length = 7 ∧ traffic.server.gotserver = 0) := by
  simp only [Traffic.step, Option.ite_none_left_eq_some, Option.some.injEq] at taken
  rcases taken with ⟨nonempty, rfl⟩
  have positive : 0 < traffic.stream.length := List.length_pos_iff.mpr nonempty
  have shorter : ((traffic.stream.drop 100).length : ℤ) = (traffic.stream.length - 100 : ℕ) := by
    rw [List.length_drop]
  have raised := gotserver_threadRead traffic.server
    (cString (storePrefix (traffic.stream.take 100) traffic.buf).toList)
  simp only [cString_read invariant.suffix nonempty] at raised
  have bounded := invariant.bounded
  have flag := invariant.flag
  constructor
  · constructor
    case suffix => exact (List.drop_suffix 100 traffic.stream).trans invariant.suffix
    case flag =>
      simp only [raised]
      split <;> omega
    case bounded =>
      simp only [raised, shorter]
      split <;> omega
  · simp only [Balanced, raised, shorter]
    split <;> omega

theorem step_write (invariant : TrafficInvariant traffic)
    (taken : traffic.step .write = some next) :
    TrafficInvariant next ∧ (Balanced next ↔ Balanced traffic) := by
  simp only [Traffic.step, Option.some.injEq] at taken
  subst taken
  have ⟨down, answered⟩ := threadWrite_flag traffic.server invariant.flag
  have more : ((traffic.assignments ++ traffic.server.threadWrite.1.toList).length : ℤ) =
      traffic.assignments.length + traffic.server.gotserver := by
    rw [List.length_append, Nat.cast_add, answered]
  have bounded := invariant.bounded
  constructor
  · constructor
    case suffix => exact invariant.suffix
    case flag => exact .inl down
    case bounded =>
      simp only [more, down]
      omega
  · simp only [Balanced, more, down, add_zero]

end Steps

/-- In a quiet state, as many assignments were written as requests were sent exactly when every
read so far found one request on the fifo, with the flag down. -/
theorem assignments_eq_sent_iff (number : ℕ) (buf : Vector Byte 100) (actions : List Action)
    (traffic : Traffic)
    (reached : run Traffic.step (Traffic.initial number buf) actions = some traffic)
    (quiet : traffic.Quiet) :
    traffic.assignments.length = traffic.sent ↔
      EveryStep Traffic.step ReadsOne (Traffic.initial number buf) actions := by
  have balanced_initial : Balanced (Traffic.initial number buf) := rfl
  have balanced : Balanced traffic ↔ Balanced (Traffic.initial number buf) ∧
      EveryStep Traffic.step ReadsOne (Traffic.initial number buf) actions := by
    apply good_final_iff TrafficInvariant Balanced (trafficInvariant_initial number buf) _ reached
    intro before action after invariant taken
    cases action with
    | request client =>
        simpa only [ReadsOne, reduceCtorEq, false_implies, and_true] using
          step_request client invariant taken
    | read => simpa only [ReadsOne, forall_const] using step_read invariant taken
    | write =>
        simpa only [ReadsOne, reduceCtorEq, false_implies, and_true] using
          step_write invariant taken
  have quiet_balanced : Balanced traffic ↔ traffic.assignments.length = traffic.sent := by
    simp only [Balanced, quiet.1, quiet.2, List.length_nil]
    omega
  rw [← quiet_balanced, balanced, and_iff_right balanced_initial]

section Samples

/-- The reader that finds one or two whole requests notices one. -/
theorem raised_of_requests {waiting : ℕ} (nonempty : 0 < waiting) (number : ℕ)
    (buf : Vector Byte 100) :
    ((MainServer.initial number).threadRead (cString (storePrefix
      ((List.replicate waiting requestBytes).flatten.take 100) buf).toList)).gotserver = 1 := by
  have whole : 7 ∣ (List.replicate waiting requestBytes).flatten.length := by
    simp
  have some_bytes : (List.replicate waiting requestBytes).flatten ≠ [] := by
    intro none_left
    have positive := congrArg List.length none_left
    simp at positive
    omega
  rw [gotserver_threadRead, if_pos ((cString_read (List.suffix_refl _) some_bytes buf).mpr whole)]

end Samples

/-- Of two requests that are read together, one is answered. -/
theorem together_answers_one : ∃ traffic,
    run Traffic.step (Traffic.initial 2 (Vector.replicate 100 0#8))
        [.request 0, .request 1, .read, .write] = some traffic ∧
      traffic.Quiet ∧ traffic.sent = 2 ∧ traffic.assignments.length = 1 := by
  have raised := raised_of_requests (by decide : 0 < 2) 2 (Vector.replicate 100 0#8)
  have ⟨down, answered⟩ := threadWrite_flag _ (.inr raised)
  refine ⟨_, rfl, ⟨rfl, down⟩, rfl, ?_⟩
  rw [raised] at answered
  exact Int.natCast_inj.mp answered

/-- A request that is read alone is answered. -/
theorem alone_is_answered : ∃ traffic,
    run Traffic.step (Traffic.initial 2 (Vector.replicate 100 0#8)) [.request 0, .read, .write] =
        some traffic ∧
      traffic.assignments.length = traffic.sent := by
  have raised := raised_of_requests (by decide : 0 < 1) 2 (Vector.replicate 100 0#8)
  have ⟨down, _⟩ := threadWrite_flag _ (.inr raised)
  refine ⟨_, rfl, (assignments_eq_sent_iff 2 (Vector.replicate 100 0#8)
    [.request 0, .read, .write] _ rfl ⟨rfl, down⟩).mpr ?_⟩
  refine fun first sent => ⟨nofun, fun second received => ⟨fun _ => ?_, ?_⟩⟩
  · cases sent
    exact ⟨rfl, rfl⟩
  · exact fun third written => ⟨nofun, everyStep_nil⟩

end NetLab.ServiceServer
