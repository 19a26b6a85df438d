import NetLab.SelectServers.LogServer

/-!
# The main server of `multiserver`

`select_servers/multiserver/mainserver.c` waits in the loop of the log server, but all
of its loops go up to the number of clients. A client that asks for one of the two kinds
of servers is given the fifo of one while there are some left.
-/

namespace NetLab.SelectServers

open NetLab.Imperative NetLab.Posix

inductive Kind where
  | s1 | s2
deriving DecidableEq

def Kind.request : Kind → List Byte
  | s1 => literal "s1\n"
  | s2 => literal "s2\n"

/-- The text at the beginning of the 35 bytes that are written to the client. -/
def Kind.fifo : Kind → List Byte
  | s1 => literal "S1fifo"
  | s2 => literal "S2fifo"

/-- How many servers of each kind are left: `n_s1` and `n_s2`. -/
structure Pool where
  nS1 : ℤ
  nS2 : ℤ

def Pool.left (pool : Pool) : Kind → ℤ
  | .s1 => pool.nS1
  | .s2 => pool.nS2

def Pool.take (pool : Pool) : Kind → Pool
  | .s1 => { pool with nS1 := pool.nS1 - 1 }
  | .s2 => { pool with nS2 := pool.nS2 - 1 }

structure MainServer where
  pool : Pool
  logs : LogFds
  logwrite : LogFds
  shm : LogFds
  interest : Interest

def createClient (kernel : Kernel) (fds : (ℕ → ℕ) × (ℕ → ℕ)) (i : ℕ) :
    Except Ended ((ℕ → ℕ) × (ℕ → ℕ)) := do
  makeFifo kernel (fifoName "mainfifo" i)
  makeFifo kernel (fifoName "mainfifowrite" i)
  let reads ← openFifo kernel (fifoName "mainfifo" i)
  let writes ← openFifo kernel (fifoName "mainfifowrite" i)
  return (Function.update fds.1 i reads, Function.update fds.2 i writes)

/-- The main server up to its loop, for the three arguments it takes. -/
def startMain (kernel : Kernel) (clients s1 s2 : List Byte) (memory : (ℕ → ℕ) × (ℕ → ℕ)) :
    Except Ended MainServer := do
  let number := atoiInt clients
  let fds ← (List.range number.toNat).foldlM (createClient kernel) memory
  makeFifo kernel (literal "S1fifo")
  makeFifo kernel (literal "S2fifo")
  makeFifo kernel (literal "S1fifowrite")
  makeFifo kernel (literal "S2fifowrite")
  if kernel.shmget = -1 then .error (.exited 1)
  else
    return {
      pool := { nS1 := atoiInt s1, nS2 := atoiInt s2 }
      logs := { number, fd := fds.1 }
      logwrite := { number, fd := fds.2 }
      shm := { number, fd := fds.1 }
      interest := Interest.fill number.toNat fds.1 { readset := ∅, max := 0 } }

def lower (byte : Byte) : Byte :=
  if 0x41#8 ≤ byte && byte ≤ 0x5A#8 then byte + 0x20#8 else byte

/-- `strcasecmp(left, right) == 0`. -/
def equalIgnoringCase (left right : List Byte) : Prop :=
  left.map lower = right.map lower

instance (left right : List Byte) : Decidable (equalIgnoringCase left right) :=
  inferInstanceAs (Decidable (_ = _))

def allocate (message : List Byte) (pool : Pool) : Option Kind :=
  if equalIgnoringCase message Kind.s1.request ∧ pool.nS1 > 0 then some .s1
  else if equalIgnoringCase message Kind.s2.request ∧ pool.nS2 > 0 then some .s2
  else none

structure Served where
  client : ℕ
  given : Option Kind
deriving DecidableEq

def serveClient (occasion : Occasion) (j : ℕ) (current : Pool × List Served) :
    Pool × List Served :=
  let data := (occasion.arrives j).take 100
  let given := if data.length > 0 then allocate (occasion.message j data) current.1 else none
  (match given with
    | some kind => current.1.take kind
    | none => current.1,
    current.2 ++ [{ client := j, given }])

def serveClients (logs : LogFds) (readset : Finset ℕ) (occasion : Occasion) (pool : Pool) :
    Pool × List Served :=
  forUp 0 logs.number.toNat
    (fun j current =>
      if logs.fd j ∈ readset then serveClient occasion j current else current) (pool, [])

/-- One iteration of the loop, with the clients it serves. -/
def MainServer.pass (server : MainServer) (occasion : Occasion) : MainServer × List Served :=
  let (retstatus, readset) :=
    select (server.interest.max + 1) server.interest.readset occasion.polled
  let (pool, served) :=
    if retstatus > 0 then serveClients server.logs readset occasion server.pool
    else (server.pool, [])
  ({ server with
      pool
      interest := Interest.fill server.logs.number.toNat server.logs.fd
        { server.interest with readset } },
    served)

def MainServer.after (server : MainServer) (occasions : ℕ → Occasion) : ℕ → MainServer
  | 0 => server
  | time + 1 => ((server.after occasions time).pass (occasions time)).1

def MainServer.servedBefore (server : MainServer) (occasions : ℕ → Occasion) : ℕ → List Served
  | 0 => []
  | time + 1 => server.servedBefore occasions time ++
      ((server.after occasions time).pass (occasions time)).2

def givenCount (kind : Kind) (served : List Served) : ℕ :=
  served.countP fun entry => entry.given = some kind

section Allocation

variable {kind : Kind} {pool : Pool} {message : List Byte} {occasion : Occasion} {j : ℕ}
  {logs : LogFds} {readset : Finset ℕ}

theorem left_of_allocate (taken : allocate message pool = some kind) : 0 < pool.left kind := by
  rw [allocate] at taken
  split at taken
  case isTrue first =>
    cases taken
    exact first.2
  case isFalse =>
    split at taken
    case isTrue second =>
      cases taken
      exact second.2
    case isFalse => cases taken

theorem left_take (pool : Pool) (kind other : Kind) :
    (pool.take other).left kind = pool.left kind - if other = kind then 1 else 0 := by
  cases kind <;> cases other <;> simp [Pool.left, Pool.take]

/-- What is left of a kind and what was given of it: a server that is given was there. -/
structure Accounts (kind : Kind) (before : ℤ) (current : Pool × List Served) : Prop where
  balance : current.1.left kind + givenCount kind current.2 = before
  natural : 0 ≤ before → 0 ≤ current.1.left kind

theorem Accounts.serveClient {before : ℤ} {current : Pool × List Served}
    (accounts : Accounts kind before current) (occasion : Occasion) (j : ℕ) :
    Accounts kind before (serveClient occasion j current) := by
  have balance := accounts.balance
  simp only [SelectServers.serveClient]
  generalize given_eq : (if ((occasion.arrives j).take 100).length > 0 then
    allocate (occasion.message j ((occasion.arrives j).take 100)) current.1 else none) = given
  have counted : givenCount kind (current.2 ++ [{ client := j, given }]) =
      givenCount kind current.2 + if given = some kind then 1 else 0 := by
    rw [givenCount, List.countP_append, givenCount]
    by_cases same : given = some kind <;> simp [same]
  cases given with
  | none =>
      constructor
      case balance => simpa [counted] using balance
      case natural => exact accounts.natural
  | some other =>
      have available : 0 < current.1.left other := by
        split at given_eq
        case isTrue => exact left_of_allocate given_eq
        case isFalse => cases given_eq
      constructor
      case balance =>
        rw [counted, left_take]
        simp only [Option.some.injEq]
        split <;> push_cast <;> omega
      case natural =>
        intro natural
        have kept := accounts.natural natural
        rw [left_take]
        split
        case isTrue same =>
          rw [same] at available
          omega
        case isFalse => omega

theorem accounts_serveClients (kind : Kind) (logs : LogFds) (readset : Finset ℕ)
    (occasion : Occasion) (pool : Pool) :
    Accounts kind (pool.left kind) (serveClients logs readset occasion pool) := by
  apply forUp_induction (fun _ (current : Pool × List Served) =>
    Accounts kind (pool.left kind) current) (Nat.zero_le _)
  · exact ⟨by simp [givenCount], id⟩
  · intro j current _ _ accounts
    split
    case isTrue => exact accounts.serveClient occasion j
    case isFalse => exact accounts

theorem mem_serveClients (inside : j < logs.number.toNat) (reported : logs.fd j ∈ readset)
    (occasion : Occasion) (pool : Pool) :
    j ∈ (serveClients logs readset occasion pool).2.map Served.client := by
  apply forUp_establish (fun current : Pool × List Served => j ∈ current.2.map Served.client)
    (Nat.zero_le j) inside
  · intro current
    rw [if_pos reported]
    simp [serveClient]
  · intro other current _ _ listed
    split
    · simp only [serveClient, List.map_append]
      exact List.mem_append_left _ listed
    · exact listed

end Allocation

section Loop

variable {kernel : Kernel} {clients s1 s2 : List Byte} {memory : (ℕ → ℕ) × (ℕ → ℕ)}
  {server : MainServer} {logs : LogFds}

/-- What the loop keeps: it waits for the descriptors of all the clients. -/
structure MainServer.Waiting (server : MainServer) (logs : LogFds) : Prop where
  table : server.logs = logs
  watching : Watching logs.number.toNat logs.fd server.interest

theorem MainServer.Waiting.pass (waiting : server.Waiting logs) (occasion : Occasion) :
    (server.pass occasion).1.Waiting logs := by
  constructor
  case table => exact waiting.table
  case watching =>
    simp only [MainServer.pass, waiting.table]
    exact waiting.watching.again _ _

theorem MainServer.Waiting.after (waiting : server.Waiting logs) (occasions : ℕ → Occasion)
    (time : ℕ) : (server.after occasions time).Waiting logs := by
  induction time with
  | zero => exact waiting
  | succ time ih => exact ih.pass (occasions time)

theorem startMain_spec (started : startMain kernel clients s1 s2 memory = .ok server) :
    server.Waiting server.logs ∧ server.logs.number = atoiInt clients ∧
      server.pool = { nS1 := atoiInt s1, nS2 := atoiInt s2 } := by
  simp only [startMain, bind_eq_ok] at started
  rcases started with ⟨fds, _, _, _, _, _, _, _, _, _, started⟩
  split at started
  case isTrue => cases started
  case isFalse =>
    cases started
    exact ⟨⟨rfl, watching_start _ _⟩, rfl, rfl⟩

theorem pass_accounts (kind : Kind) (server : MainServer) (occasion : Occasion) :
    Accounts kind (server.pool.left kind)
      ((server.pass occasion).1.pool, (server.pass occasion).2) := by
  simp only [MainServer.pass]
  split
  case isTrue => exact accounts_serveClients kind _ _ occasion server.pool
  case isFalse => exact ⟨by simp [givenCount], id⟩

theorem accounts_after (kind : Kind) (server : MainServer) (occasions : ℕ → Occasion) (time : ℕ) :
    Accounts kind (server.pool.left kind)
      ((server.after occasions time).pool, server.servedBefore occasions time) := by
  induction time with
  | zero => exact ⟨by simp [givenCount, MainServer.after, MainServer.servedBefore], id⟩
  | succ time ih =>
      have step := pass_accounts kind (server.after occasions time) (occasions time)
      have before := ih.balance
      have balance := step.balance
      constructor
      case balance =>
        simp only [MainServer.after, MainServer.servedBefore, givenCount, List.countP_append]
        simp only [givenCount] at before balance
        push_cast
        omega
      case natural => exact fun natural => step.natural (ih.natural natural)

end Loop

/-- In every iteration the main server waits for all of its clients, however many there are, and
serves those that can be read. -/
theorem clients_watched (kernel : Kernel) (clients s1 s2 : List Byte)
    (memory : (ℕ → ℕ) × (ℕ → ℕ)) (server : MainServer) (occasions : ℕ → Occasion) (time : ℕ)
    (started : startMain kernel clients s1 s2 memory = .ok server) :
    WatchesAll (atoiInt clients).toNat server.logs.fd (server.after occasions time).interest
      (occasions time).polled
      (((server.after occasions time).pass (occasions time)).2.map Served.client) := by
  have ⟨waiting, number, _⟩ := startMain_spec started
  have waits := waiting.after occasions time
  rw [← number]
  apply waits.watching.watchesAll
  intro positive j inside reported
  simp only [MainServer.pass, gt_iff_lt, if_pos positive]
  rw [← waits.table] at inside reported
  exact mem_serveClients inside reported _ _

/-- No more servers of a kind are given to clients than the main server was started with. -/
theorem given_le (kernel : Kernel) (clients s1 s2 : List Byte) (memory : (ℕ → ℕ) × (ℕ → ℕ))
    (server : MainServer) (occasions : ℕ → Occasion) (time : ℕ) (kind : Kind)
    (started : startMain kernel clients s1 s2 memory = .ok server)
    (natural : 0 ≤ ({ nS1 := atoiInt s1, nS2 := atoiInt s2 } : Pool).left kind) :
    givenCount kind (server.servedBefore occasions time) ≤
      ({ nS1 := atoiInt s1, nS2 := atoiInt s2 } : Pool).left kind := by
  have ⟨_, _, pool⟩ := startMain_spec started
  have accounts := accounts_after kind server occasions time
  rw [pool] at accounts
  have balance := accounts.balance
  have kept := accounts.natural natural
  simp only at balance kept
  omega

end NetLab.SelectServers
