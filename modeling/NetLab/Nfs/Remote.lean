import NetLab.Nfs.CommandLine
import NetLab.Nfs.Handlers
import NetLab.Nfs.Wire
import NetLab.Systems.Refinement

/-!
# Remote calls

The dispatcher of `nfs_svc.c` and the stubs of `nfs_clnt.c`: a call becomes a message, the message
a request to a handler, and its reply a message again. A message is a procedure number and the bytes
of the argument; its header, and what the RPC library does with lost and repeated messages, is left
out. `room` is the size of the buffers in which messages are made up.
-/

namespace NetLab.Nfs

open NetLab.Posix NetLab.Systems NetLab.Xdr

structure Message where
  rqProc : ℕ
  input : List Byte

/-- What the server sends back. -/
inductive Answer where
  | reply (results : List Byte)
  | noproc
  | decode
  | systemerr

/-- What the system answers to the calls that a message causes. -/
structure Surroundings where
  listing : LsAnswers
  transfer : Answers
  above : List Byte
  accessible : Bool
  permitted : Bool
  details : List Byte
  change : NameChange

/-- The members of the `union` after `memset`. -/
def FileArgsR.cleared : FileArgsR where
  filename := Vector.replicate 128 0#8
  offset := 0#32
  size := 0#32

def FileArgsW.cleared : FileArgsW where
  filename := Vector.replicate 128 0#8
  offset := 0#32
  buffer := Vector.replicate 1024 0#8
  size := 0#32

/-- `svc_sendreply` with the routine of the result, or `svcerr_systemerr`. -/
def Reply.send (room : ℕ) (reply : Reply) : Answer :=
  let encoded := match reply with
    | .node result => xdrBufnode.encoded room result
    | .number result => xdrInt.encoded room (BitVec.ofInt 32 result)
  match encoded with
  | some results => .reply results
  | none => .systemerr

/-- The end of `nfs_remote_1`, behind the `switch`. The process ends if the argument cannot be
freed, or in the handler. -/
def Server.callLocal {Argument : Type} (server : Server) (room : ℕ)
    (xdrArgument : Routine Argument) (cleared : Argument) (locally : Argument → Request)
    (input : List Byte) : Option (Answer × Server) :=
  match xdrArgument.decoded input cleared with
  | none => some (.decode, server)
  | some argument => do
      let (result, server) ← server.nfsRemote1 (locally argument)
      if (xdrArgument .freeing argument).ok then some (result.send room, server) else none

/-- `nfs_remote_1` of `nfs_svc.c`, on the bytes of a message. -/
def Server.nfsRemote1Message (server : Server) (room : ℕ) (around : Surroundings)
    (message : Message) : Option (Answer × Server) :=
  let node := server.callLocal room xdrBufnode Bufnode.initial
  match message.rqProc with
  | 0 => some (.reply [], server)
  | 1 => node (.ls around.listing) message.input
  | 2 => server.callLocal room xdrFileArgsW FileArgsW.cleared
      (.write around.transfer around.above) message.input
  | 3 => server.callLocal room xdrFileArgsR FileArgsR.cleared (.read around.transfer) message.input
  | 4 => node (.cd around.permitted) message.input
  | 5 => node (.getattr around.accessible around.details) message.input
  | 6 => node (.setattr around.accessible around.permitted) message.input
  | 7 => node (.remove around.change) message.input
  | 8 => node (.mkdir around.change) message.input
  | 9 => node (.touch around.change) message.input
  | _ => some (.noproc, server)

/-- The message that a stub of `nfs_clnt.c` makes of its argument, if the argument has room. -/
def Call.message (room : ℕ) : Call → Option Message
  | .nfsLs1 argp => (xdrBufnode.encoded room argp).map (Message.mk 1)
  | .nfsWrite1 argp => (xdrFileArgsW.encoded room argp).map (Message.mk 2)
  | .nfsRead1 argp => (xdrFileArgsR.encoded room argp).map (Message.mk 3)
  | .nfsCd1 argp => (xdrBufnode.encoded room argp).map (Message.mk 4)
  | .getattr1 argp => (xdrBufnode.encoded room argp).map (Message.mk 5)
  | .setattr1 argp => (xdrBufnode.encoded room argp).map (Message.mk 6)
  | .nfsRemove1 argp => (xdrBufnode.encoded room argp).map (Message.mk 7)
  | .nfsMkdir1 argp => (xdrBufnode.encoded room argp).map (Message.mk 8)
  | .nfsTouch1 argp => (xdrBufnode.encoded room argp).map (Message.mk 9)

/-- The `static clnt_res` of a stub, which was cleared, after an answer; none for the null pointer
of a call that failed. -/
def Call.clntRes (call : Call) (answer : Answer) : Option Reply :=
  match answer with
  | .reply results =>
      match call with
      | .nfsLs1 _ | .nfsRead1 _ | .getattr1 _ =>
          (xdrBufnode.decoded results Bufnode.initial).map .node
      | _ => (xdrInt.decoded results 0#32).map fun result => .number result.toInt
  | _ => none

/-- A stub of `nfs_clnt.c` whose message and answer arrive: the client has a result or a null
pointer. -/
def Server.remote (server : Server) (room : ℕ) (around : Surroundings) (call : Call) :
    Option (Option Reply × Server) :=
  match call.message room with
  | none => some (none, server)
  | some message => (server.nfsRemote1Message room around message).map fun (answer, server) =>
      (call.clntRes answer, server)

/-- The request that a call stands for. -/
def Call.request (around : Surroundings) : Call → Request
  | .nfsLs1 argp => .ls around.listing argp
  | .nfsWrite1 argp => .write around.transfer around.above argp
  | .nfsRead1 argp => .read around.transfer argp
  | .nfsCd1 argp => .cd around.permitted argp
  | .getattr1 argp => .getattr around.accessible around.details argp
  | .setattr1 argp => .setattr around.accessible around.permitted argp
  | .nfsRemove1 argp => .remove around.change argp
  | .nfsMkdir1 argp => .mkdir around.change argp
  | .nfsTouch1 argp => .touch around.change argp

/-- How many bytes the argument of a call takes up in its message. -/
def Call.width : Call → ℕ
  | .nfsWrite1 _ => 4616
  | .nfsRead1 _ => 520
  | _ => 4100

def Reply.width : Reply → ℕ
  | .node _ => 4100
  | .number _ => 4

/-- What an `int` holds of a result. -/
def Reply.stored : Reply → Reply
  | .node result => .node result
  | .number result => .number (BitVec.ofInt 32 result).toInt

/-- The call that a message is taken for, if it is one of the nine and long enough. -/
def Message.call (message : Message) : Option Call :=
  let node (call : Bufnode → Call) := (xdrBufnode.decoded message.input Bufnode.initial).map call
  match message.rqProc with
  | 1 => node .nfsLs1
  | 2 => (xdrFileArgsW.decoded message.input FileArgsW.cleared).map .nfsWrite1
  | 3 => (xdrFileArgsR.decoded message.input FileArgsR.cleared).map .nfsRead1
  | 4 => node .nfsCd1
  | 5 => node .getattr1
  | 6 => node .setattr1
  | 7 => node .nfsRemove1
  | 8 => node .nfsMkdir1
  | 9 => node .nfsTouch1
  | _ => none

section Dispatch

variable {server : Server} {room : ℕ} {around : Surroundings} {call : Call}

theorem callLocal_eq {Argument : Type} (format : Format Argument) (cleared : Argument)
    (locally : Argument → Request) (input : List Byte) :
    server.callLocal room format.routine cleared locally input =
      match format.routine.decoded input cleared with
      | none => some (.decode, server)
      | some argument => (server.nfsRemote1 (locally argument)).map fun (result, after) =>
          (result.send room, after) := by
  rw [Server.callLocal]
  cases format.routine.decoded input cleared with
  | none => rfl
  | some argument =>
      simp only [format.fixed.free argument, if_true]
      cases server.nfsRemote1 (locally argument) <;> rfl

theorem callLocal_decoded {Argument : Type} (format : Format Argument) (cleared : Argument)
    (locally : Argument → Request) (make : Argument → Call) (input : List Byte)
    (same : ∀ argument, (make argument).request around = locally argument) :
    (server.callLocal room format.routine cleared locally input).map Prod.snd =
      match (format.routine.decoded input cleared).map make with
      | none => some server
      | some call => server.serve (call.request around) := by
  rw [callLocal_eq]
  cases format.routine.decoded input cleared with
  | none => rfl
  | some argument =>
      simp only [Option.map_some, Option.map_map, Server.serve, same]
      rfl

/-- A message that is no call leaves the server alone; another one does what its call does. -/
theorem nfsRemote1Message_state (message : Message) :
    (server.nfsRemote1Message room around message).map Prod.snd =
      match message.call with
      | none => some server
      | some call => server.serve (call.request around) := by
  have node := @callLocal_decoded server room around Bufnode bufnodeFormat
  have write := @callLocal_decoded server room around FileArgsW fileArgsWFormat
  have read := @callLocal_decoded server room around FileArgsR fileArgsRFormat
  match message with
  | ⟨0, _⟩ => rfl
  | ⟨1, _⟩ => exact node _ _ .nfsLs1 _ fun _ => rfl
  | ⟨2, _⟩ => exact write _ _ .nfsWrite1 _ fun _ => rfl
  | ⟨3, _⟩ => exact read _ _ .nfsRead1 _ fun _ => rfl
  | ⟨4, _⟩ => exact node _ _ .nfsCd1 _ fun _ => rfl
  | ⟨5, _⟩ => exact node _ _ .getattr1 _ fun _ => rfl
  | ⟨6, _⟩ => exact node _ _ .setattr1 _ fun _ => rfl
  | ⟨7, _⟩ => exact node _ _ .nfsRemove1 _ fun _ => rfl
  | ⟨8, _⟩ => exact node _ _ .nfsMkdir1 _ fun _ => rfl
  | ⟨9, _⟩ => exact node _ _ .nfsTouch1 _ fun _ => rfl
  | ⟨_ + 10, _⟩ => rfl

section Stubs

variable {Argument : Type} (format : Format Argument) {cleared argp : Argument}
  {locally : Argument → Request}

/-- A stub for a call whose message the dispatcher decodes by the routine that has made it. -/
theorem remote_of_format (number : ℕ)
    (message : call.message room = (format.routine.encoded room argp).map (Message.mk number))
    (dispatch : ∀ input, server.nfsRemote1Message room around ⟨number, input⟩ =
      server.callLocal room format.routine cleared locally input)
    (returns : ∀ outcome ∈ server.nfsRemote1 (locally argp),
      call.clntRes (outcome.1.send room) =
        if outcome.1.width ≤ room then some outcome.1.stored else none) :
    server.remote room around call =
      if format.width ≤ room then
        (server.nfsRemote1 (locally argp)).map fun outcome =>
          (if outcome.1.width ≤ room then some outcome.1.stored else none, outcome.2)
      else some (none, server) := by
  rw [Server.remote, message, format.encoded_eq]
  by_cases fits : format.width ≤ room
  · simp only [if_pos fits, Option.map_some, dispatch, callLocal_eq, format.decoded_image,
      Option.map_map]
    apply Option.map_congr
    intro outcome answered
    exact Prod.ext (returns outcome answered) rfl
  · simp only [if_neg fits, Option.map_none]

end Stubs

/-- A record that is sent back. -/
theorem clntRes_node (node : ∀ results, call.clntRes (.reply results) =
      (xdrBufnode.decoded results Bufnode.initial).map .node) (result : Bufnode) :
    call.clntRes ((Reply.node result).send room) =
      if (Reply.node result).width ≤ room then some (Reply.node result).stored else none := by
  have encoded : xdrBufnode.encoded room result = _ := bufnodeFormat.encoded_eq room result
  have decoded := bufnodeFormat.decoded_image result Bufnode.initial
  have width : bufnodeFormat.width = (Reply.node result).width := rfl
  simp only [Reply.send, encoded, width, Reply.stored]
  by_cases fits : (Reply.node result).width ≤ room
  · simp only [if_pos fits]
    exact (node _).trans (congrArg (Option.map Reply.node) decoded)
  · simp only [if_neg fits]
    rfl

theorem clntRes_number (number : ∀ results, call.clntRes (.reply results) =
      (xdrInt.decoded results 0#32).map fun result => .number result.toInt) (result : ℤ) :
    call.clntRes ((Reply.number result).send room) =
      if (Reply.number result).width ≤ room then some (Reply.number result).stored else none := by
  have encoded : xdrInt.encoded room (BitVec.ofInt 32 result) = _ := Format.int.encoded_eq room _
  have decoded := Format.int.decoded_image (BitVec.ofInt 32 result) 0#32
  have width : Format.int.width = (Reply.number result).width := rfl
  simp only [Reply.send, encoded, width, Reply.stored]
  by_cases fits : (Reply.number result).width ≤ room
  · simp only [if_pos fits]
    exact (number _).trans (congrArg (Option.map fun value => Reply.number value.toInt) decoded)
  · simp only [if_neg fits]
    rfl

end Dispatch

/-- A remote call is the call of the handler on the same record, with the same result, if both
records have room. A call whose argument has none does nothing, and one whose result has none does
its work and returns a null pointer. -/
theorem remote_eq (server : Server) (room : ℕ) (around : Surroundings) (call : Call) :
    server.remote room around call =
      if call.width ≤ room then
        (server.nfsRemote1 (call.request around)).map fun (reply, after) =>
          (if reply.width ≤ room then some reply.stored else none, after)
      else some (none, server) := by
  cases call with
  | nfsLs1 argp =>
      refine remote_of_format bufnodeFormat 1 rfl (fun _ => rfl) ?_
      intro outcome answered
      rcases Option.map_eq_some_iff.mp answered with ⟨listed, _, rfl⟩
      exact clntRes_node (fun _ => rfl) _
  | nfsRead1 argp =>
      refine remote_of_format fileArgsRFormat 3 rfl (fun _ => rfl) ?_
      rintro _ ⟨⟩
      exact clntRes_node (fun _ => rfl) _
  | getattr1 argp =>
      refine remote_of_format bufnodeFormat 5 rfl (fun _ => rfl) ?_
      rintro _ ⟨⟩
      exact clntRes_node (fun _ => rfl) _
  | nfsWrite1 argp =>
      refine remote_of_format fileArgsWFormat 2 rfl (fun _ => rfl) ?_
      rintro _ ⟨⟩
      exact clntRes_number (fun _ => rfl) _
  | nfsCd1 argp =>
      refine remote_of_format bufnodeFormat 4 rfl (fun _ => rfl) ?_
      rintro _ ⟨⟩
      exact clntRes_number (fun _ => rfl) _
  | setattr1 argp =>
      refine remote_of_format bufnodeFormat 6 rfl (fun _ => rfl) ?_
      rintro _ ⟨⟩
      exact clntRes_number (fun _ => rfl) _
  | nfsRemove1 argp =>
      refine remote_of_format bufnodeFormat 7 rfl (fun _ => rfl) ?_
      rintro _ ⟨⟩
      exact clntRes_number (fun _ => rfl) _
  | nfsMkdir1 argp =>
      refine remote_of_format bufnodeFormat 8 rfl (fun _ => rfl) ?_
      rintro _ ⟨⟩
      exact clntRes_number (fun _ => rfl) _
  | nfsTouch1 argp =>
      refine remote_of_format bufnodeFormat 9 rfl (fun _ => rfl) ?_
      rintro _ ⟨⟩
      exact clntRes_number (fun _ => rfl) _

/-- One message after the other, from any clients. -/
def Server.deliver (room : ℕ) (server : Server) (delivery : Surroundings × Message) :
    Option Server :=
  (server.nfsRemote1Message room delivery.1 delivery.2).map Prod.snd

/-- The message that stands for a call. -/
def Message.request (delivery : Surroundings × Message) : Option Request :=
  delivery.2.call.map (Call.request delivery.1)

/-- How many bytes a procedure needs, if it is one of the nine. -/
def argumentWidth : ℕ → Option ℕ
  | 2 => some 4616
  | 3 => some 520
  | 1 | 4 | 5 | 6 | 7 | 8 | 9 => some 4100
  | _ => none

theorem run_deliver (room : ℕ) (server : Server) (deliveries : List (Surroundings × Message)) :
    run (Server.deliver room) server deliveries =
      run Server.serve server (deliveries.filterMap Message.request) := by
  apply run_filterMap
  intro server delivery
  rw [Server.deliver, nfsRemote1Message_state, Message.request]
  cases delivery.2.call <;> rfl

theorem isSome_call_iff (message : Message) : message.call.isSome = true ↔
    ∃ width, argumentWidth message.rqProc = some width ∧ width ≤ message.input.length := by
  have taken {Argument : Type} (format : Format Argument) (cleared : Argument)
      (make : Argument → Call) (input : List Byte) :
      ((format.routine.decoded input cleared).map make).isSome = true ↔
        ∃ width, some format.width = some width ∧ width ≤ input.length := by
    simp only [Option.isSome_map, format.isSome_decoded_iff, Option.some.injEq, exists_eq_left']
  match message with
  | ⟨0, _⟩ | ⟨_ + 10, _⟩ => simp [Message.call, argumentWidth]
  | ⟨1, _⟩ | ⟨4, _⟩ | ⟨5, _⟩ | ⟨6, _⟩ | ⟨7, _⟩ | ⟨8, _⟩ | ⟨9, _⟩ =>
      exact taken bufnodeFormat Bufnode.initial _ _
  | ⟨2, _⟩ => exact taken fileArgsWFormat FileArgsW.cleared _ _
  | ⟨3, _⟩ => exact taken fileArgsRFormat FileArgsR.cleared _ _

/-- Whatever messages arrive, the server goes through the states that the handlers bring about for
those among them that name a procedure and are long enough for its argument. -/
theorem messages_refine_requests (room : ℕ) (server : Server)
    (deliveries : List (Surroundings × Message)) :
    run (Server.deliver room) server deliveries =
        run Server.serve server (deliveries.filterMap Message.request) ∧
      ∀ delivery ∈ deliveries, (Message.request delivery).isSome = true ↔
        ∃ width, argumentWidth delivery.2.rqProc = some width ∧
          width ≤ delivery.2.input.length := by
  refine ⟨run_deliver room server deliveries, ?_⟩
  intro delivery _
  rw [Message.request, Option.isSome_map]
  exact isSome_call_iff delivery.2

/-- What happens to the server: a client makes a call, or any other message arrives. -/
inductive Event where
  | calls (around : Surroundings) (call : Call)
  | arrives (around : Surroundings) (message : Message)

/-- The results that the clients are given for their calls, and the server in the end. -/
def Server.session (room : ℕ) (server : Server) :
    List Event → Option (List (Option Reply) × Server)
  | [] => some ([], server)
  | .calls around call :: events => do
      let (result, server) ← server.remote room around call
      let (results, server) ← server.session room events
      some (result :: results, server)
  | .arrives around message :: events => do
      let server ← server.deliver room (around, message)
      server.session room events

/-- The same events with the handlers called directly. -/
def Server.localSession (server : Server) : List Event → Option (List Reply × Server)
  | [] => some ([], server)
  | .calls around call :: events => do
      let (reply, server) ← server.nfsRemote1 (call.request around)
      let (replies, server) ← server.localSession events
      some (reply.stored :: replies, server)
  | .arrives around message :: events =>
      match Message.request (around, message) with
      | none => server.localSession events
      | some request => do
          let server ← server.serve request
          server.localSession events

/-- In buffers of 4616 bytes or more every call gets the result that its handler gives for the same
record, whatever else arrives between the calls. -/
theorem session_eq_local {room : ℕ} (enough : 4616 ≤ room) (server : Server)
    (events : List Event) :
    server.session room events = (server.localSession events).map fun (replies, after) =>
      (replies.map some, after) := by
  induction events generalizing server with
  | nil => rfl
  | cons event events ih =>
      cases event with
      | calls around call =>
          have argument : call.width ≤ room := by
            cases call <;> simp only [Call.width] <;> omega
          have result (reply : Reply) : reply.width ≤ room := by
            cases reply <;> simp only [Reply.width] <;> omega
          simp only [Server.session, Server.localSession, remote_eq, if_pos argument, result,
            if_true]
          cases server.nfsRemote1 (call.request around) with
          | none => rfl
          | some outcome =>
              simp only [Option.map_some, Option.bind_eq_bind, Option.bind_some, ih]
              cases outcome.2.localSession events <;> rfl
      | arrives around message =>
          simp only [Server.session, Server.localSession, Server.deliver, nfsRemote1Message_state,
            Message.request]
          cases message.call with
          | none => exact ih server
          | some call =>
              simp only [Option.map_some, Option.bind_eq_bind]
              cases server.serve (call.request around) with
              | none => rfl
              | some next => exact ih next

/-- The system grants everything. -/
def grantedAround : Surroundings where
  listing := { accessible := true, opens := true, names := [] }
  transfer := granted
  above := []
  accessible := true
  permitted := true
  details := []
  change := fun _ _ => none

/-- A read call behind a message that is too short, in the buffers of UDP. -/
theorem session_udp :
    let events := [.arrives grantedAround ⟨2, []⟩,
      .calls grantedAround (.nfsRead1 (readRequest 0#32 1#32))]
    (Server.start (oneFile [65#8])).session 8800 events =
      ((Server.start (oneFile [65#8])).localSession events).map fun (replies, after) =>
        (replies.map some, after) :=
  session_eq_local (by decide) _ _

end NetLab.Nfs
