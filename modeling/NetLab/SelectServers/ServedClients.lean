import NetLab.Posix.Records
import NetLab.SelectServers.MainServer
import NetLab.Systems.Relays

/-!
# The clients of `multiserver`

A client of `select_servers/multiserver` types to the main server first. Its second thread waits for
the name of a server's fifo, opens it into the variable `fd` that the first thread writes to, and
only then lets that one go on. The three kinds of programs are interleaved, and so are the threads.
-/

namespace NetLab.SelectServers.ServedClients

open NetLab.Posix NetLab.Systems

/-- The arrays `message` and `buf`. -/
abbrev Message :=
  Vector Byte 100

/-- What the descriptor in `fd` belongs to. -/
inductive Target where
  | main
  | server (kind : Kind)
  | invalid
deriving DecidableEq

/-- How far `thread_read` has got: it reads the name of a fifo, opens it and sets `gotserver`. What
it reads afterwards from the fifo for answers is written by nobody. -/
inductive Reader where
  | waiting
  | named
  | opened
  | listening
deriving DecidableEq

/-- A client: whether `thread_write` has sent its first message, and what the threads share. -/
structure Client where
  asked : Bool
  fd : Target
  gotserver : Bool
  reader : Reader
  buf : Message

/-- The fifos by their readers, and the processes. `printed` is what `buf` of a server held whenever
it was printed. -/
structure Multiserver where
  clients : ℕ → Client
  mainfifo : ℕ → List Byte
  mainfifowrite : ℕ → List Byte
  pool : Pool
  buf : Message
  serverfifo : Kind → List Byte
  serverbuf : Kind → Message
  printed : Kind → List Message

inductive Move where
  | types (client : ℕ) (message : Message)
  | serves (client : ℕ)
  | reads (client : ℕ)
  | opens (client : ℕ)
  | proceeds (client : ℕ)
  | prints (kind : Kind)

/-- What `open(buf,O_RDWR)` gives: there is no other fifo that a client could be told of. -/
def openedBy (name : List Byte) : Target :=
  if name = Kind.s1.fifo then .server .s1
  else if name = Kind.s2.fifo then .server .s2
  else .invalid

/-- The 35 bytes that are written to a client: the name, its terminator and what the memory holds
`behind`. -/
def given (behind : Vector Byte 28) (kind : Kind) : List Byte :=
  kind.fifo ++ [0#8] ++ behind.toList

namespace Multiserver

/-- Nobody has typed anything, and the arrays hold anything. -/
def start (pool : Pool) (clientbuf : ℕ → Message) (buf : Message) (serverbuf : Kind → Message) :
    Multiserver where
  clients client :=
    { asked := false, fd := .main, gotserver := false, reader := .waiting, buf := clientbuf client }
  mainfifo _ := []
  mainfifowrite _ := []
  pool
  buf
  serverfifo _ := []
  serverbuf
  printed _ := []

def withClient (system : Multiserver) (client : ℕ) (process : Client) : Multiserver :=
  { system with clients := Function.update system.clients client process }

/-- `write(fd,message,sizeof(message))` of a client. -/
def write (system : Multiserver) (client : ℕ) (message : Message) : Target → Multiserver
  | .main =>
      { system with
        mainfifo := Function.update system.mainfifo client
          (system.mainfifo client ++ message.toList) }
  | .server kind =>
      { system with
        serverfifo := Function.update system.serverfifo kind
          (system.serverfifo kind ++ message.toList) }
  | .invalid => system

/-- What the main server does for a client whose fifo can be read. -/
def serve (system : Multiserver) (behind : Vector Byte 28) (client : ℕ) : Multiserver :=
  let buf := storePrefix ((system.mainfifo client).take 100) system.buf
  let read := { system with
    mainfifo := Function.update system.mainfifo client ((system.mainfifo client).drop 100)
    buf }
  match allocate (cString buf.toList) system.pool with
  | none => read
  | some kind =>
      { read with
        pool := system.pool.take kind
        mainfifowrite := Function.update system.mainfifowrite client
          (system.mainfifowrite client ++ given behind kind) }

/-- What happens next. What `fgets` leaves in `message` has a terminator. -/
def step (behind : Vector Byte 28) (system : Multiserver) : Move → Option Multiserver
  | .types client message =>
      let process := system.clients client
      if message.toList.contains 0#8 ∧ (process.asked = false ∨ process.gotserver = true) then
        some ((system.write client message process.fd).withClient client
          { process with asked := true })
      else none
  | .serves client =>
      if system.mainfifo client ≠ [] then some (system.serve behind client) else none
  | .reads client =>
      let process := system.clients client
      let bytes := system.mainfifowrite client
      if process.reader = .waiting ∧ bytes ≠ [] then
        some ({ system with
          mainfifowrite := Function.update system.mainfifowrite client (bytes.drop 100)
          }.withClient client
            { process with reader := .named, buf := storePrefix (bytes.take 100) process.buf })
      else none
  | .opens client =>
      let process := system.clients client
      if process.reader = .named then
        some (system.withClient client
          { process with reader := .opened, fd := openedBy (cString process.buf.toList) })
      else none
  | .proceeds client =>
      let process := system.clients client
      if process.reader = .opened then
        some (system.withClient client { process with reader := .listening, gotserver := true })
      else none
  | .prints kind =>
      let bytes := system.serverfifo kind
      if bytes ≠ [] then
        let buf := storePrefix (bytes.take 100) (system.serverbuf kind)
        some { system with
          serverfifo := Function.update system.serverfifo kind (bytes.drop 100)
          serverbuf := Function.update system.serverbuf kind buf
          printed := Function.update system.printed kind (system.printed kind ++ [buf]) }
      else none

end Multiserver

/-- What a client has typed. -/
def typedBy (client : ℕ) (moves : List Move) : List Message :=
  moves.filterMap fun move =>
    match move with
    | .types typist message => if typist = client then some message else none
    | _ => none

/-! ## Where the clients stand -/

/-- How far a client has got, with what it has typed. -/
inductive Stage where
  | fresh
  | asking (first : Message)
  | refused (first : Message)
  | replied (kind : Kind) (first : Message)
  | named (kind : Kind) (first : Message)
  | opened (kind : Kind) (first : Message)
  | served (kind : Kind) (first : Message) (rest : List Message)

namespace Stage

def typed : Stage → List Message
  | .fresh => []
  | .asking first | .refused first => [first]
  | .replied _ first | .named _ first | .opened _ first => [first]
  | .served _ first rest => first :: rest

/-- The kind of server that the client was given. -/
def server : Stage → Option Kind
  | .fresh | .asking _ | .refused _ => none
  | .replied kind _ | .named kind _ | .opened kind _ | .served kind _ _ => some kind

/-- What the client has sent to the servers of a kind. -/
def sent (stage : Stage) (kind : Kind) : List Message :=
  match stage with
  | .served other _ rest => if other = kind then rest else []
  | _ => []

/-- The message asks for a server of this kind. -/
def Asks (first : Message) (kind : Kind) : Prop :=
  equalIgnoringCase (cString first.toList) kind.request

/-- The variables of the client and the contents of its two fifos at a stage. -/
inductive Fits (behind : Vector Byte 28) : Stage → Client × List Byte × List Byte → Prop where
  | fresh (buf : Message) : Fits behind .fresh (⟨false, .main, false, .waiting, buf⟩, [], [])
  | asking (first buf : Message) :
      Fits behind (.asking first) (⟨true, .main, false, .waiting, buf⟩, first.toList, [])
  | refused (first buf : Message) :
      Fits behind (.refused first) (⟨true, .main, false, .waiting, buf⟩, [], [])
  | replied (kind : Kind) (first buf : Message) (asks : Asks first kind) :
      Fits behind (.replied kind first)
        (⟨true, .main, false, .waiting, buf⟩, [], given behind kind)
  | named (kind : Kind) (first buf : Message) (asks : Asks first kind)
      (name : cString buf.toList = kind.fifo) :
      Fits behind (.named kind first) (⟨true, .main, false, .named, buf⟩, [], [])
  | opened (kind : Kind) (first buf : Message) (asks : Asks first kind) :
      Fits behind (.opened kind first) (⟨true, .server kind, false, .opened, buf⟩, [], [])
  | served (kind : Kind) (first : Message) (rest : List Message) (buf : Message)
      (asks : Asks first kind) :
      Fits behind (.served kind first rest) (⟨true, .server kind, true, .listening, buf⟩, [], [])

end Stage

/-- What belongs to a client alone. -/
def Multiserver.view (system : Multiserver) (client : ℕ) : Client × List Byte × List Byte :=
  (system.clients client, system.mainfifo client, system.mainfifowrite client)

/-- The stages of the clients, their messages by the fifo they are in or have passed, and who was
given a server. -/
structure Ledger where
  stages : ℕ → Stage
  queued : Kind → List (ℕ × Message)
  shown : Kind → List (ℕ × Message)
  holders : Kind → List ℕ

/-- The fifos and the terminals of the servers hold the messages of the clients they were given
to. -/
structure Carried (system : Multiserver) (stages : ℕ → Stage)
    (queued shown : Kind → List (ℕ × Message)) : Prop where
  serverfifo : ∀ kind, system.serverfifo kind = recordBytes ((queued kind).map Prod.snd)
  printed : ∀ kind, system.printed kind = (shown kind).map Prod.snd
  own : ∀ client kind,
    messagesOf client (shown kind ++ queued kind) = (stages client).sent kind

/-- Each server that is gone from the pool was given to one client. -/
structure Counted (pool now : Pool) (stages : ℕ → Stage) (holders : Kind → List ℕ) : Prop where
  nodup : ∀ kind, (holders kind).Nodup
  server : ∀ client kind, client ∈ holders kind ↔ (stages client).server = some kind
  balance : ∀ kind, (holders kind).length + now.left kind = pool.left kind
  natural : ∀ kind, 0 ≤ pool.left kind → 0 ≤ now.left kind

structure Account (behind : Vector Byte 28) (pool : Pool) (system : Multiserver)
    (ledger : Ledger) : Prop where
  placed : ∀ client, (ledger.stages client).Fits behind (system.view client)
  carried : Carried system ledger.stages ledger.queued ledger.shown
  counted : Counted pool system.pool ledger.stages ledger.holders

/-- The ledger after a client has got to another stage. -/
def Ledger.moveTo (ledger : Ledger) (client : ℕ) (stage : Stage) : Ledger :=
  { ledger with stages := Function.update ledger.stages client stage }

section Account

variable {behind : Vector Byte 28} {pool : Pool} {system next : Multiserver} {ledger : Ledger}
  {client : ℕ} {stage : Stage} {stages : ℕ → Stage} {queued shown : Kind → List (ℕ × Message)}
  {now : Pool} {holders : Kind → List ℕ} {message first : Message} {rest : List Message}
  {kind : Kind}

theorem placed_moveTo (placed : ∀ client, (ledger.stages client).Fits behind (system.view client))
    (fits : stage.Fits behind (next.view client))
    (others : ∀ other ≠ client, next.view other = system.view other) (other : ℕ) :
    ((ledger.moveTo client stage).stages other).Fits behind (next.view other) := by
  rcases eq_or_ne other client with rfl | apart
  · simpa only [Ledger.moveTo, Function.update_self] using fits
  · rw [others other apart]
    simpa only [Ledger.moveTo, Function.update_of_ne apart] using placed other

theorem Carried.moveTo (carried : Carried system stages queued shown)
    (serverfifo : next.serverfifo = system.serverfifo) (printed : next.printed = system.printed)
    (sent : ∀ kind, stage.sent kind = (stages client).sent kind) :
    Carried next (Function.update stages client stage) queued shown := by
  constructor
  case serverfifo => exact serverfifo ▸ carried.serverfifo
  case printed => exact printed ▸ carried.printed
  case own =>
    intro other kind
    rw [carried.own]
    rcases eq_or_ne other client with rfl | apart
    · simp only [Function.update_self, sent]
    · simp only [Function.update_of_ne apart]

/-- A message of a client that has been given a server is put into the fifo of that server. -/
theorem Carried.talk (carried : Carried system stages queued shown)
    (stage_eq : stages client = .served kind first rest)
    (serverfifo : next.serverfifo = Function.update system.serverfifo kind
      (system.serverfifo kind ++ message.toList))
    (printed : next.printed = system.printed) :
    Carried next (Function.update stages client (.served kind first (rest ++ [message])))
      (Function.update queued kind (queued kind ++ [(client, message)])) shown := by
  constructor
  case serverfifo =>
    intro other
    rw [serverfifo]
    rcases eq_or_ne other kind with rfl | differs
    · simp [carried.serverfifo, recordBytes_append_singleton]
    · simpa only [Function.update_of_ne differs] using carried.serverfifo other
  case printed => exact printed ▸ carried.printed
  case own =>
    intro other which
    have own := carried.own other which
    rcases eq_or_ne which kind with rfl | differs
    · rw [Function.update_self, ← List.append_assoc, messagesOf_append, own]
      rcases eq_or_ne other client with rfl | apart
      · rw [messagesOf_self, Function.update_self, stage_eq]
        simp [Stage.sent]
      · rw [messagesOf_other apart.symm, List.append_nil, Function.update_of_ne apart]
    · rw [Function.update_of_ne differs, own]
      rcases eq_or_ne other client with rfl | apart
      · rw [Function.update_self, stage_eq]
        simp [Stage.sent, differs.symm]
      · rw [Function.update_of_ne apart]

/-- A server reads the first message in its fifo and prints it. -/
theorem Carried.print (carried : Carried system stages queued shown)
    {item : ℕ × Message} {items : List (ℕ × Message)} (queued_eq : queued kind = item :: items)
    (serverfifo : next.serverfifo = Function.update system.serverfifo kind
      (recordBytes (items.map Prod.snd)))
    (printed : next.printed = Function.update system.printed kind
      (system.printed kind ++ [item.2])) :
    Carried next stages (Function.update queued kind items)
      (Function.update shown kind (shown kind ++ [item])) := by
  constructor
  case serverfifo =>
    intro other
    rw [serverfifo]
    rcases eq_or_ne other kind with rfl | differs
    · simp only [Function.update_self]
    · simpa only [Function.update_of_ne differs] using carried.serverfifo other
  case printed =>
    intro other
    rw [printed]
    rcases eq_or_ne other kind with rfl | differs
    · simp [carried.printed]
    · simpa only [Function.update_of_ne differs] using carried.printed other
  case own =>
    intro client which
    rw [← carried.own client which]
    rcases eq_or_ne which kind with rfl | differs
    · simp only [Function.update_self, queued_eq, List.append_assoc, List.singleton_append]
    · simp only [Function.update_of_ne differs]

theorem Counted.moveTo (counted : Counted pool now stages holders)
    (server : stage.server = (stages client).server) :
    Counted pool now (Function.update stages client stage) holders := by
  constructor
  case nodup => exact counted.nodup
  case balance => exact counted.balance
  case natural => exact counted.natural
  case server =>
    intro other kind
    rw [counted.server]
    rcases eq_or_ne other client with rfl | apart
    · simp only [Function.update_self, server]
    · simp only [Function.update_of_ne apart]

/-- A server that is left is given to a client that has none. -/
theorem Counted.give (counted : Counted pool now stages holders)
    (free : (stages client).server = none) (server : stage.server = some kind)
    (available : 0 < now.left kind) :
    Counted pool (now.take kind) (Function.update stages client stage)
      (Function.update holders kind (client :: holders kind)) := by
  constructor
  case nodup =>
    intro other
    rcases eq_or_ne other kind with rfl | differs
    · rw [Function.update_self, List.nodup_cons, counted.server, free]
      exact ⟨nofun, counted.nodup other⟩
    · simpa only [Function.update_of_ne differs] using counted.nodup other
  case server =>
    intro other which
    rcases eq_or_ne other client with rfl | apart
    · have none := counted.server other which
      rw [free] at none
      rw [Function.update_self, server, Option.some.injEq]
      rcases eq_or_ne which kind with rfl | differs
      · simp
      · simp [Function.update_of_ne differs, none, differs.symm]
    · rw [Function.update_of_ne apart, ← counted.server]
      rcases eq_or_ne which kind with rfl | differs
      · simp [apart]
      · simp only [Function.update_of_ne differs]
  case balance =>
    intro other
    have balance := counted.balance other
    rw [left_take]
    rcases eq_or_ne other kind with rfl | differs
    · rw [Function.update_self, List.length_cons, if_pos rfl]
      push_cast
      omega
    · rw [Function.update_of_ne differs, if_neg differs.symm]
      omega
  case natural =>
    intro other natural
    have kept := counted.natural other natural
    rw [left_take]
    split
    case isTrue same =>
      rw [same] at available
      omega
    case isFalse => omega

theorem typed_moveTo {moves : List Move}
    (typed : stage.typed = (ledger.stages client).typed ++ typedBy client moves)
    (others : ∀ other ≠ client, typedBy other moves = []) (other : ℕ) :
    ((ledger.moveTo client stage).stages other).typed =
      (ledger.stages other).typed ++ typedBy other moves := by
  rcases eq_or_ne other client with rfl | apart
  · simpa only [Ledger.moveTo, Function.update_self] using typed
  · simp only [Ledger.moveTo, Function.update_of_ne apart, others other apart, List.append_nil]

theorem typedBy_self (client : ℕ) (message : Message) :
    typedBy client [.types client message] = [message] := by
  simp [typedBy]

theorem typedBy_other {other : ℕ} (apart : other ≠ client) :
    typedBy other [.types client message] = [] := by
  simp [typedBy, apart.symm]

end Account

/-! ## The steps -/

/-- What a step has to show: the account goes on, and each client has typed what the step says. -/
def Continues (behind : Vector Byte 28) (pool : Pool) (ledger : Ledger) (move : Move)
    (next : Multiserver) : Prop :=
  ∃ after, Account behind pool next after ∧
    ∀ client, (after.stages client).typed = (ledger.stages client).typed ++ typedBy client [move]

section Steps

variable {behind : Vector Byte 28} {pool : Pool} {system next : Multiserver} {ledger : Ledger}
  {client : ℕ} {stage : Stage} {message first : Message} {rest : List Message} {kind : Kind}

/-- A step in which a client gets on, and neither the servers nor the pool have a part. -/
theorem Account.getOn {old : Stage} {move : Move} (account : Account behind pool system ledger)
    (stage_eq : ledger.stages client = old) (fits : stage.Fits behind (next.view client))
    (others : ∀ other ≠ client, next.view other = system.view other)
    (serverfifo : next.serverfifo = system.serverfifo) (printed : next.printed = system.printed)
    (same : next.pool = system.pool) (sent : ∀ kind, stage.sent kind = old.sent kind)
    (server : stage.server = old.server)
    (typed : stage.typed = old.typed ++ typedBy client [move])
    (alone : ∀ other ≠ client, typedBy other [move] = []) :
    Continues behind pool ledger move next := by
  subst stage_eq
  exact ⟨ledger.moveTo client stage,
    ⟨placed_moveTo account.placed fits others, account.carried.moveTo serverfifo printed sent,
      same ▸ account.counted.moveTo server⟩,
    typed_moveTo typed alone⟩

/-- The first message goes to the main server. -/
theorem Account.asks (account : Account behind pool system ledger)
    (stage_eq : ledger.stages client = .fresh) :
    Continues behind pool ledger (.types client message)
      ((system.write client message (system.clients client).fd).withClient client
        { system.clients client with asked := true }) := by
  have placed := account.placed client
  rw [stage_eq, Multiserver.view] at placed
  generalize system.clients client = process at placed ⊢
  generalize fifo_eq : system.mainfifo client = fifo at placed
  generalize answers_eq : system.mainfifowrite client = answers at placed
  cases placed with
  | fresh buf =>
      apply account.getOn stage_eq
      case fits =>
        simpa [Multiserver.view, Multiserver.withClient, Multiserver.write, fifo_eq, answers_eq]
          using Stage.Fits.asking message buf
      case others =>
        intro other apart
        simp only [Multiserver.view, Multiserver.withClient, Multiserver.write,
          Function.update_of_ne apart]
      case serverfifo | printed | same | sent | server => intros; rfl
      case typed =>
        rw [typedBy_self]
        rfl
      case alone => exact fun other apart => typedBy_other apart

/-- What a client types afterwards goes to the server that it was given. -/
theorem Account.talks (account : Account behind pool system ledger)
    (stage_eq : ledger.stages client = .served kind first rest) :
    Continues behind pool ledger (.types client message)
      ((system.write client message (system.clients client).fd).withClient client
        { system.clients client with asked := true }) := by
  have placed := account.placed client
  rw [stage_eq, Multiserver.view] at placed
  generalize system.clients client = process at placed ⊢
  generalize fifo_eq : system.mainfifo client = fifo at placed
  generalize answers_eq : system.mainfifowrite client = answers at placed
  cases placed with
  | served _ _ _ buf asks =>
      refine ⟨{ ledger.moveTo client (.served kind first (rest ++ [message])) with
        queued := Function.update ledger.queued kind (ledger.queued kind ++ [(client, message)]) },
        ⟨placed_moveTo account.placed ?_ ?_, ?_, ?_⟩, typed_moveTo ?_ ?_⟩
      · simpa [Multiserver.view, Multiserver.withClient, Multiserver.write, fifo_eq, answers_eq]
          using Stage.Fits.served kind first (rest ++ [message]) buf asks
      · intro other apart
        simp only [Multiserver.view, Multiserver.withClient, Multiserver.write,
          Function.update_of_ne apart]
      · exact account.carried.talk stage_eq rfl rfl
      · apply account.counted.moveTo
        rw [stage_eq]
        rfl
      · rw [stage_eq, typedBy_self]
        rfl
      · exact fun other apart => typedBy_other apart

theorem request_of_allocate {text : List Byte} (allocated : allocate text pool = some kind) :
    equalIgnoringCase text kind.request := by
  rw [allocate] at allocated
  split at allocated
  case isTrue first =>
    cases allocated
    exact first.1
  case isFalse =>
    split at allocated
    case isTrue second =>
      cases allocated
      exact second.1
    case isFalse => cases allocated

/-- The message that a client has sent fills `buf`. -/
theorem serve_eq (sent : system.mainfifo client = first.toList) :
    system.serve behind client =
      match allocate (cString first.toList) system.pool with
      | none => { system with
          mainfifo := Function.update system.mainfifo client []
          buf := first }
      | some kind => { system with
          mainfifo := Function.update system.mainfifo client []
          buf := first
          pool := system.pool.take kind
          mainfifowrite := Function.update system.mainfifowrite client
            (system.mainfifowrite client ++ given behind kind) } := by
  have read : storePrefix (first.toList.take 100) system.buf = first := by
    rw [List.take_of_length_le (by simp), storePrefix_record]
  have rest : first.toList.drop 100 = [] := by
    simp
  dsimp only [Multiserver.serve]
  rw [sent, read, rest]

/-- In the loop of the main server the same is done for the client. -/
theorem serveClient_eq (occasion : Occasion) (served : List Served)
    (waiting : system.mainfifo client ≠ [])
    (arrives : occasion.arrives client = system.mainfifo client)
    (old : occasion.buf client = system.buf) {buf : Message}
    (read : storePrefix ((system.mainfifo client).take 100) system.buf = buf)
    (terminated : 0#8 ∈ buf.toList) :
    serveClient occasion client (system.pool, served) =
      ((system.serve behind client).pool,
        served ++ [⟨client, allocate (cString buf.toList) system.pool⟩]) := by
  have positive : ((system.mainfifo client).take 100).length > 0 := by
    have length := List.length_pos_of_ne_nil waiting
    rw [List.length_take]
    omega
  have text : occasion.message client ((system.mainfifo client).take 100) =
      cString buf.toList := by
    rw [Occasion.message, old, read, cString_append_of_mem terminated]
  dsimp only [serveClient, Multiserver.serve]
  rw [arrives, if_pos positive, text, read]
  generalize allocate (cString buf.toList) system.pool = answer
  cases answer with
  | none => rfl
  | some kind => rfl

/-- The main server reads the message of a client, and gives it a server if there is one left of
the kind it asks for. -/
theorem Account.isServed (account : Account behind pool system ledger)
    (waiting : system.mainfifo client ≠ []) :
    Continues behind pool ledger (.serves client) (system.serve behind client) := by
  have placed := account.placed client
  generalize stage_eq : ledger.stages client = stage at placed
  rw [Multiserver.view] at placed
  generalize process_eq : system.clients client = process at placed
  generalize fifo_eq : system.mainfifo client = fifo at placed waiting
  generalize answers_eq : system.mainfifowrite client = answers at placed
  cases placed with
  | asking first buf =>
      rw [serve_eq fifo_eq]
      split
      case h_1 nothing =>
        apply account.getOn stage_eq
        case fits =>
          simpa [Multiserver.view, process_eq, answers_eq] using Stage.Fits.refused first buf
        case others =>
          intro other apart
          simp only [Multiserver.view, Function.update_of_ne apart]
        case serverfifo | printed | same | sent | server | typed | alone => intros; rfl
      case h_2 kind allocated =>
        refine ⟨{ ledger.moveTo client (.replied kind first) with
          holders := Function.update ledger.holders kind (client :: ledger.holders kind) },
          ⟨placed_moveTo account.placed ?_ ?_, account.carried.moveTo rfl rfl ?_,
            account.counted.give ?_ rfl (left_of_allocate allocated)⟩, typed_moveTo ?_ ?_⟩
        · simpa [Multiserver.view, process_eq, answers_eq]
            using Stage.Fits.replied kind first buf (request_of_allocate allocated)
        · intro other apart
          simp only [Multiserver.view, Function.update_of_ne apart]
        · simp [stage_eq, Stage.sent]
        · rw [stage_eq]
          rfl
        · rw [stage_eq]
          rfl
        · exact fun _ _ => rfl
  | fresh | refused | replied | named | opened | served => exact absurd rfl waiting

theorem length_given (behind : Vector Byte 28) (kind : Kind) :
    (given behind kind).length = 35 := by
  cases kind <;> simp [given, Kind.fifo, literal]

theorem plain_fifo (kind : Kind) : 0#8 ∉ kind.fifo := by
  cases kind <;> decide

/-- The name of the fifo ends where its terminator is. -/
theorem cString_given (behind : Vector Byte 28) (kind : Kind) (buf : Message) :
    cString (storePrefix ((given behind kind).take 100) buf).toList = kind.fifo := by
  have length := length_given behind kind
  rw [List.take_of_length_le (by omega), toList_storePrefix (by omega), given, List.append_assoc,
    List.append_assoc, cString_append (plain_fifo kind), List.singleton_append, cString_zero_cons,
    List.append_nil]

theorem openedBy_fifo (kind : Kind) : openedBy kind.fifo = .server kind := by
  cases kind <;> decide

/-- The second thread reads the name of the fifo. -/
theorem Account.reads (account : Account behind pool system ledger)
    (waiting : (system.clients client).reader = .waiting)
    (answered : system.mainfifowrite client ≠ []) :
    Continues behind pool ledger (.reads client)
      ({ system with
        mainfifowrite := Function.update system.mainfifowrite client
          ((system.mainfifowrite client).drop 100) }.withClient client
        { system.clients client with
          reader := .named
          buf := storePrefix ((system.mainfifowrite client).take 100)
            (system.clients client).buf }) := by
  have placed := account.placed client
  generalize stage_eq : ledger.stages client = stage at placed
  rw [Multiserver.view] at placed
  generalize system.clients client = process at placed waiting ⊢
  generalize fifo_eq : system.mainfifo client = fifo at placed
  generalize system.mainfifowrite client = answers at placed answered ⊢
  cases placed with
  | replied kind first buf asks =>
      apply account.getOn stage_eq
      case fits =>
        have name := cString_given behind kind buf
        have whole : (given behind kind).drop 100 = [] :=
          List.drop_of_length_le (by rw [length_given]; decide)
        simpa [Multiserver.view, Multiserver.withClient, fifo_eq, whole]
          using Stage.Fits.named kind first _ asks name
      case others =>
        intro other apart
        simp only [Multiserver.view, Multiserver.withClient, Function.update_of_ne apart]
      case serverfifo | printed | same | sent | server | typed | alone => intros; rfl
  | fresh | asking | refused | named | opened | served => exact absurd rfl answered

/-- The second thread opens the fifo. -/
theorem Account.opens (account : Account behind pool system ledger)
    (named : (system.clients client).reader = .named) :
    Continues behind pool ledger (.opens client)
      (system.withClient client
        { system.clients client with
          reader := .opened
          fd := openedBy (cString (system.clients client).buf.toList) }) := by
  have placed := account.placed client
  generalize stage_eq : ledger.stages client = stage at placed
  rw [Multiserver.view] at placed
  generalize system.clients client = process at placed named ⊢
  generalize fifo_eq : system.mainfifo client = fifo at placed
  generalize answers_eq : system.mainfifowrite client = answers at placed
  cases placed with
  | named kind first buf asks name =>
      apply account.getOn stage_eq
      case fits =>
        simpa [Multiserver.view, Multiserver.withClient, fifo_eq, answers_eq, name, openedBy_fifo]
          using Stage.Fits.opened kind first buf asks
      case others =>
        intro other apart
        simp only [Multiserver.view, Multiserver.withClient, Function.update_of_ne apart]
      case serverfifo | printed | same | sent | server | typed | alone => intros; rfl
  | fresh | asking | refused | replied | opened | served => cases named

/-- The second thread lets the first one go on. -/
theorem Account.proceeds (account : Account behind pool system ledger)
    (opened : (system.clients client).reader = .opened) :
    Continues behind pool ledger (.proceeds client)
      (system.withClient client
        { system.clients client with reader := .listening, gotserver := true }) := by
  have placed := account.placed client
  generalize stage_eq : ledger.stages client = stage at placed
  rw [Multiserver.view] at placed
  generalize system.clients client = process at placed opened ⊢
  generalize fifo_eq : system.mainfifo client = fifo at placed
  generalize answers_eq : system.mainfifowrite client = answers at placed
  cases placed with
  | opened kind first buf asks =>
      apply account.getOn stage_eq
      case fits =>
        simpa [Multiserver.view, Multiserver.withClient, fifo_eq, answers_eq]
          using Stage.Fits.served kind first [] buf asks
      case others =>
        intro other apart
        simp only [Multiserver.view, Multiserver.withClient, Function.update_of_ne apart]
      case sent =>
        intro which
        exact ite_self []
      case serverfifo | printed | same | server | typed | alone => intros; rfl
  | fresh | asking | refused | replied | named | served => cases opened

/-- A server prints what is in front in its fifo. -/
theorem Account.prints (account : Account behind pool system ledger)
    (readable : system.serverfifo kind ≠ []) :
    Continues behind pool ledger (.prints kind)
      (let buf := storePrefix ((system.serverfifo kind).take 100) (system.serverbuf kind)
      { system with
        serverfifo := Function.update system.serverfifo kind ((system.serverfifo kind).drop 100)
        serverbuf := Function.update system.serverbuf kind buf
        printed := Function.update system.printed kind (system.printed kind ++ [buf]) }) := by
  have fifo := account.carried.serverfifo kind
  cases queued_eq : ledger.queued kind with
  | nil =>
      rw [queued_eq] at fifo
      exact absurd fifo readable
  | cons item items =>
      rw [queued_eq, List.map_cons] at fifo
      refine ⟨{ ledger with
        queued := Function.update ledger.queued kind items
        shown := Function.update ledger.shown kind (ledger.shown kind ++ [item]) },
        ⟨account.placed, account.carried.print queued_eq ?_ ?_, account.counted⟩, ?_⟩
      · dsimp only
        rw [fifo, drop_recordBytes]
      · dsimp only
        rw [fifo, take_recordBytes, storePrefix_record]
      · intro client
        exact (List.append_nil _).symm

theorem Account.types (account : Account behind pool system ledger)
    (allowed : (system.clients client).asked = false ∨ (system.clients client).gotserver = true) :
    Continues behind pool ledger (.types client message)
      ((system.write client message (system.clients client).fd).withClient client
        { system.clients client with asked := true }) := by
  have placed := account.placed client
  rw [Multiserver.view] at placed
  generalize stage_eq : ledger.stages client = stage at placed
  generalize process_eq : system.clients client = process at placed allowed
  generalize system.mainfifo client = fifo at placed
  generalize system.mainfifowrite client = answers at placed
  rw [← process_eq]
  cases placed with
  | fresh => exact account.asks stage_eq
  | served => exact account.talks stage_eq
  | asking | refused | replied | named | opened => simp at allowed

theorem Account.step (account : Account behind pool system ledger) {move : Move}
    (taken : system.step behind move = some next) : Continues behind pool ledger move next := by
  cases move with
  | types client message =>
      rw [Multiserver.step, Option.ite_none_right_eq_some, Option.some.injEq] at taken
      rcases taken with ⟨⟨_, allowed⟩, rfl⟩
      exact account.types allowed
  | serves client =>
      rw [Multiserver.step, Option.ite_none_right_eq_some, Option.some.injEq] at taken
      rcases taken with ⟨waiting, rfl⟩
      exact account.isServed waiting
  | reads client =>
      rw [Multiserver.step, Option.ite_none_right_eq_some, Option.some.injEq] at taken
      rcases taken with ⟨⟨waiting, answered⟩, rfl⟩
      exact account.reads waiting answered
  | opens client =>
      rw [Multiserver.step, Option.ite_none_right_eq_some, Option.some.injEq] at taken
      rcases taken with ⟨named, rfl⟩
      exact account.opens named
  | proceeds client =>
      rw [Multiserver.step, Option.ite_none_right_eq_some, Option.some.injEq] at taken
      rcases taken with ⟨opened, rfl⟩
      exact account.proceeds opened
  | prints kind =>
      rw [Multiserver.step, Option.ite_none_right_eq_some, Option.some.injEq] at taken
      rcases taken with ⟨readable, rfl⟩
      exact account.prints readable

end Steps

/-! ## Runs -/

section Runs

variable {behind : Vector Byte 28} {pool : Pool} {system final : Multiserver} {ledger : Ledger}
  {moves : List Move}

theorem typedBy_cons (client : ℕ) (move : Move) (moves : List Move) :
    typedBy client (move :: moves) = typedBy client [move] ++ typedBy client moves :=
  List.filterMap_append (l := [move])

theorem Account.run (account : Account behind pool system ledger)
    (reached : run (Multiserver.step behind) system moves = some final) :
    ∃ after, Account behind pool final after ∧
      ∀ client, (after.stages client).typed =
        (ledger.stages client).typed ++ typedBy client moves := by
  induction moves generalizing system ledger with
  | nil =>
      cases reached
      exact ⟨ledger, account, fun client => (List.append_nil _).symm⟩
  | cons move moves ih =>
      rcases run_cons_eq_some.mp reached with ⟨next, taken, reached⟩
      rcases account.step taken with ⟨between, continued, first⟩
      rcases ih continued reached with ⟨after, finished, rest⟩
      refine ⟨after, finished, fun client => ?_⟩
      rw [rest, first, List.append_assoc, ← typedBy_cons]

theorem account_start (clientbuf : ℕ → Message) (buf : Message) (serverbuf : Kind → Message) :
    Account behind pool (.start pool clientbuf buf serverbuf)
      ⟨fun _ => .fresh, fun _ => [], fun _ => [], fun _ => []⟩ := by
  constructor
  case placed => exact fun client => .fresh (clientbuf client)
  case carried => exact ⟨fun _ => rfl, fun _ => rfl, fun _ _ => rfl⟩
  case counted =>
    constructor
    case nodup => exact fun _ => List.nodup_nil
    case server => exact fun _ _ => ⟨nofun, nofun⟩
    case balance => exact fun _ => zero_add _
    case natural => exact fun _ natural => natural

/-- What a client without a server, and one that was given one of some kind, have typed, and which
of it the servers have printed. A message that is `underway` is in the fifo of the server. -/
def KeptApart (final : Multiserver) (typed : List Message) (entries : Kind → List Message) :
    Option Kind → Prop
  | none => typed.length ≤ 1 ∧ ∀ kind, entries kind = []
  | some kind =>
      ∃ first underway, equalIgnoringCase (cString first.toList) kind.request ∧
        typed = first :: (entries kind ++ underway) ∧
        (final.serverfifo kind = [] → underway = []) ∧ ∀ other ≠ kind, entries other = []

theorem Stage.Fits.unserved {stage : Stage} {view : Client × List Byte × List Byte}
    (fits : stage.Fits behind view) (none : stage.server = none) :
    stage.typed.length ≤ 1 ∧ ∀ kind, stage.sent kind = [] := by
  cases fits with
  | fresh => exact ⟨Nat.zero_le 1, fun _ => rfl⟩
  | asking | refused => exact ⟨le_rfl, fun _ => rfl⟩
  | replied | named | opened | served => cases none

theorem Stage.Fits.served_by {stage : Stage} {view : Client × List Byte × List Byte} {kind : Kind}
    (fits : stage.Fits behind view) (server : stage.server = some kind) :
    ∃ first, Stage.Asks first kind ∧ stage.typed = first :: stage.sent kind ∧
      ∀ other ≠ kind, stage.sent other = [] := by
  cases fits with
  | fresh | asking | refused => cases server
  | replied _ first _ asks | named _ first _ asks | opened _ first _ asks =>
      cases server
      exact ⟨first, asks, rfl, fun _ _ => rfl⟩
  | served _ first rest _ asks =>
      cases server
      refine ⟨first, asks, ?_, fun other differs => if_neg differs.symm⟩
      rw [Stage.typed, Stage.sent, if_pos rfl]

theorem Account.keptApart (account : Account behind pool final ledger) (client : ℕ) :
    KeptApart final (ledger.stages client).typed
      (fun kind => messagesOf client (ledger.shown kind)) (ledger.stages client).server := by
  have placed := account.placed client
  have own (kind : Kind) : messagesOf client (ledger.shown kind) ++
      messagesOf client (ledger.queued kind) = (ledger.stages client).sent kind := by
    rw [← messagesOf_append, account.carried.own]
  cases server : (ledger.stages client).server with
  | none =>
      have ⟨short, nothing⟩ := placed.unserved server
      refine ⟨short, fun kind => ?_⟩
      have sent := own kind
      rw [nothing kind] at sent
      exact (List.append_eq_nil_iff.mp sent).1
  | some kind =>
      rcases placed.served_by server with ⟨first, asks, typed, apart⟩
      refine ⟨first, messagesOf client (ledger.queued kind), asks, ?_, ?_, ?_⟩
      · rw [typed, own]
      · intro empty
        rw [account.carried.serverfifo, recordBytes_eq_nil_iff (by decide),
          List.map_eq_nil_iff] at empty
        rw [empty]
        rfl
      · intro other differs
        have sent := own other
        rw [apart other differs] at sent
        exact (List.append_eq_nil_iff.mp sent).1

end Runs

def messageOf (text : List Byte) : Message :=
  storePrefix text (Vector.replicate 100 0#8)

/-- Two clients ask for the only server of a kind, and the first one gets it. -/
def twoAsk : List Move :=
  [.types 0 (messageOf (literal "s1\n")), .types 1 (messageOf (literal "S1\n")), .serves 0,
    .serves 1, .reads 0, .opens 0, .proceeds 0, .types 0 (messageOf (literal "hello\n")),
    .prints .s1]

theorem twoAsk_runs : (run (Multiserver.step (Vector.replicate 28 0#8))
    (.start ⟨1, 1⟩ (fun _ => messageOf []) (messageOf []) (fun _ => messageOf []))
    twoAsk).isSome = true := by
  decide +kernel

end NetLab.SelectServers.ServedClients
