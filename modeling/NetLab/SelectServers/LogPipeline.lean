import NetLab.Posix.Records
import NetLab.Systems.Refinement
import NetLab.Systems.Relays

/-!
# From the keyboard to the log

The three programs of `select_servers/logserver` at work. A client writes what is typed to its fifo,
100 bytes at a time; a server reads from the fifos it was given and writes to its log fifo; and the
log server reads the log fifos and prints. All of them are interleaved, between a server's `read`
and its `write` too. `select` has reported a fifo that is read; which of them the log server watches
does not matter here.
-/

namespace NetLab.SelectServers

open NetLab.Posix NetLab.Systems

/-- The array `message` or `buf`. -/
abbrev Record :=
  Vector Byte 100

variable {Client Server Log : Type*}

/-- The fifos, and the processes at work: `buf` of each server and whether it is to be written,
`buf` of the log server, and what it held whenever it was printed. -/
structure Pipeline (Client Server Log : Type*) where
  fifo : Client → List Byte
  buf : Server → Record
  writing : Server → Bool
  logfifo : Log → List Byte
  logbuf : Record
  printed : Log → List Record

/-- Nothing has been typed, and the buffers hold anything. -/
def Pipeline.start (buf : Server → Record) (logbuf : Record) : Pipeline Client Server Log where
  fifo _ := []
  buf
  writing _ := false
  logfifo _ := []
  logbuf
  printed _ := []

/-- The bytes are those of the messages. -/
structure Represents (pipeline : Pipeline Client Server Log)
    (traffic : Traffic Client Server Log Record) : Prop where
  fifo : ∀ client, pipeline.fifo client = recordBytes (traffic.queued client)
  writing : ∀ server, pipeline.writing server = (traffic.held server).isSome
  buf : ∀ server item, traffic.held server = some item → pipeline.buf server = item.2
  logfifo : ∀ log, pipeline.logfifo log = recordBytes ((traffic.passed log).map Prod.snd)
  printed : ∀ log, pipeline.printed log = (traffic.delivered log).map Prod.snd

theorem represents_start (buf : Server → Record) (logbuf : Record) :
    Represents (@Pipeline.start Client Server Log buf logbuf) Traffic.empty := by
  constructor
  case buf => exact fun _ _ none => by cases none
  case fifo | writing | logfifo | printed => exact fun _ => rfl

variable [DecidableEq Client] [DecidableEq Server] [DecidableEq Log]

/-- A client writes a message, a server reads from a fifo or writes what it has read, or the log
server reads from a log and prints. -/
def Pipeline.step (wiring : Wiring Client Server Log) (pipeline : Pipeline Client Server Log) :
    Movement Client Server Log Record → Option (Pipeline Client Server Log)
  | .sends client message =>
      some { pipeline with
        fifo := Function.update pipeline.fifo client (pipeline.fifo client ++ message.toList) }
  | .takes server client =>
      if wiring.serves server client = true ∧ pipeline.writing server = false ∧
          pipeline.fifo client ≠ [] then
        some { pipeline with
          fifo := Function.update pipeline.fifo client ((pipeline.fifo client).drop 100)
          buf := Function.update pipeline.buf server
            (storePrefix ((pipeline.fifo client).take 100) (pipeline.buf server))
          writing := Function.update pipeline.writing server true }
      else none
  | .passes server =>
      if pipeline.writing server = true then
        let log := wiring.target server
        some { pipeline with
          writing := Function.update pipeline.writing server false
          logfifo := Function.update pipeline.logfifo log
            (pipeline.logfifo log ++ (pipeline.buf server).toList) }
      else none
  | .delivers log =>
      if pipeline.logfifo log ≠ [] then
        let buf := storePrefix ((pipeline.logfifo log).take 100) pipeline.logbuf
        some { pipeline with
          logfifo := Function.update pipeline.logfifo log ((pipeline.logfifo log).drop 100)
          logbuf := buf
          printed := Function.update pipeline.printed log (pipeline.printed log ++ [buf]) }
      else none

section Simulation

variable {wiring : Wiring Client Server Log} {pipeline next : Pipeline Client Server Log}
  {traffic : Traffic Client Server Log Record}

theorem Represents.takes (represents : Represents pipeline traffic) {server : Server}
    {client : Client} (taken : pipeline.step wiring (.takes server client) = some next) :
    ∃ after, wiring.move traffic (.takes server client) = some after ∧ Represents next after := by
  rw [Pipeline.step, Option.ite_none_right_eq_some] at taken
  rcases taken with ⟨⟨serves, idle, ready⟩, same⟩
  cases same
  rw [represents.writing, Option.isSome_eq_false_iff, Option.isNone_iff_eq_none] at idle
  rw [represents.fifo, ne_eq, recordBytes_eq_nil_iff (by decide)] at ready
  rcases List.exists_cons_of_ne_nil ready with ⟨message, rest, queued⟩
  refine ⟨_, by rw [Wiring.move, serves, idle, queued], ?_⟩
  have bytes := represents.fifo client
  rw [queued] at bytes
  constructor
  case fifo =>
    intro other
    rcases eq_or_ne other client with rfl | apart
    · simp only [Function.update_self, bytes, drop_recordBytes]
    · simp only [Function.update_of_ne apart, represents.fifo]
  case writing =>
    intro other
    rcases eq_or_ne other server with rfl | apart
    · simp only [Function.update_self, Option.isSome_some]
    · simp only [Function.update_of_ne apart, represents.writing]
  case buf =>
    intro other item held
    rcases eq_or_ne other server with rfl | apart
    · simp only [Function.update_self, Option.some.injEq] at held
      simp only [Function.update_self, bytes, take_recordBytes, storePrefix_record, ← held]
    · simp only [Function.update_of_ne apart] at held ⊢
      exact represents.buf other item held
  case logfifo => exact represents.logfifo
  case printed => exact represents.printed

theorem Represents.passes (represents : Represents pipeline traffic) {server : Server}
    (taken : pipeline.step wiring (.passes server) = some next) :
    ∃ after, wiring.move traffic (.passes server) = some after ∧ Represents next after := by
  rw [Pipeline.step, Option.ite_none_right_eq_some] at taken
  rcases taken with ⟨busy, same⟩
  cases same
  rw [represents.writing, Option.isSome_iff_exists] at busy
  rcases busy with ⟨item, held⟩
  refine ⟨_, by rw [Wiring.move, held], ?_⟩
  constructor
  case fifo => exact represents.fifo
  case writing =>
    intro other
    rcases eq_or_ne other server with rfl | apart
    · simp only [Function.update_self, Option.isSome_none]
    · simp only [Function.update_of_ne apart, represents.writing]
  case buf =>
    intro other item held
    rcases eq_or_ne other server with rfl | apart
    · simp only [Function.update_self, reduceCtorEq] at held
    · simp only [Function.update_of_ne apart] at held
      exact represents.buf other item held
  case logfifo =>
    intro other
    rcases eq_or_ne other (wiring.target server) with rfl | apart
    · simp only [Function.update_self, represents.logfifo, represents.buf server item held,
        List.map_append, List.map_singleton, recordBytes_append_singleton]
    · simp only [Function.update_of_ne apart, represents.logfifo]
  case printed => exact represents.printed

theorem Represents.delivers (represents : Represents pipeline traffic) {log : Log}
    (taken : pipeline.step wiring (.delivers log) = some next) :
    ∃ after, wiring.move traffic (.delivers log) = some after ∧ Represents next after := by
  rw [Pipeline.step, Option.ite_none_right_eq_some] at taken
  rcases taken with ⟨ready, same⟩
  cases same
  rw [represents.logfifo, ne_eq, recordBytes_eq_nil_iff (by decide), List.map_eq_nil_iff] at ready
  rcases List.exists_cons_of_ne_nil ready with ⟨item, rest, passed⟩
  refine ⟨_, by rw [Wiring.move, passed], ?_⟩
  have bytes := represents.logfifo log
  rw [passed, List.map_cons] at bytes
  constructor
  case fifo => exact represents.fifo
  case writing => exact represents.writing
  case buf => exact represents.buf
  case logfifo =>
    intro other
    rcases eq_or_ne other log with rfl | apart
    · simp only [Function.update_self, bytes, drop_recordBytes]
    · simp only [Function.update_of_ne apart, represents.logfifo]
  case printed =>
    intro other
    rcases eq_or_ne other log with rfl | apart
    · simp only [Function.update_self, bytes, take_recordBytes, storePrefix_record,
        represents.printed, List.map_append, List.map_singleton]
    · simp only [Function.update_of_ne apart, represents.printed]

theorem Represents.step (represents : Represents pipeline traffic)
    (label : Movement Client Server Log Record)
    (taken : pipeline.step wiring label = some next) :
    ∃ after, wiring.move traffic label = some after ∧ Represents next after := by
  cases label with
  | sends client message =>
      cases taken
      refine ⟨_, rfl, ?_⟩
      constructor
      case fifo =>
        intro other
        rcases eq_or_ne other client with rfl | apart
        · simp only [Function.update_self, represents.fifo, recordBytes_append_singleton]
        · simp only [Function.update_of_ne apart, represents.fifo]
      case writing => exact represents.writing
      case buf => exact represents.buf
      case logfifo => exact represents.logfifo
      case printed => exact represents.printed
  | takes server client => exact represents.takes taken
  | passes server => exact represents.passes taken
  | delivers log => exact represents.delivers taken

end Simulation

def letterA : Record :=
  Vector.replicate 100 0x41#8

end NetLab.SelectServers
