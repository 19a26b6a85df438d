import NetLab.Posix.Select
import NetLab.Posix.Text

/-!
# The log server

`select_servers/logserver/logserver.c` opens one fifo for each log and reads those
that `select` reports. The loops that fill the descriptor set go up to `argc-1`, the
number of arguments; the loop that reads goes up to `logs.number`, the value of the
one argument. The array `fd` is as long as it has to be.
-/

namespace NetLab.SelectServers

open NetLab.Imperative NetLab.Posix

/-- `struct logfds`, of which a copy is put into shared memory. -/
structure LogFds where
  number : ℤ
  fd : ℕ → ℕ

/-- What the system calls before the loop return. -/
structure Kernel where
  mkfifo : List Byte → ℤ
  openFifo : List Byte → ℤ
  shmget : ℤ

inductive Ended where
  | exited (status : ℤ)
  | crashed
deriving DecidableEq

/-- The name that `snprintf` puts into a buffer of 50 bytes. -/
def fifoName (base : String) (i : ℕ) : List Byte :=
  (literal base ++ decimal i).take 49

def makeFifo (kernel : Kernel) (name : List Byte) : Except Ended Unit :=
  if kernel.mkfifo name ≠ 0 then .error (.exited 0) else .ok ()

def openFifo (kernel : Kernel) (name : List Byte) : Except Ended ℕ :=
  if kernel.openFifo name < 0 then .error (.exited 0) else .ok (kernel.openFifo name).toNat

def createLog (kernel : Kernel) (fd : ℕ → ℕ) (i : ℕ) : Except Ended (ℕ → ℕ) := do
  makeFifo kernel (fifoName "logfifo" i)
  let opened ← openFifo kernel (fifoName "logfifo" i)
  return Function.update fd i opened

structure LogServer where
  argc : ℕ
  logs : LogFds
  shm : LogFds
  interest : Interest

/-- The log server up to its loop. Without an argument `atoi` is given a null pointer. -/
def startLogs (kernel : Kernel) (argv : List (List Byte)) (memory : ℕ → ℕ) :
    Except Ended LogServer :=
  match argv[1]? with
  | none => .error .crashed
  | some argument => do
      let number := atoiInt argument
      let fd ← (List.range number.toNat).foldlM (createLog kernel) memory
      if kernel.shmget = -1 then .error (.exited 1)
      else
        return {
          argc := argv.length
          logs := { number, fd }
          shm := { number, fd }
          interest := Interest.fill (argv.length - 1) fd { readset := ∅, max := 0 } }

/-- What an iteration meets: how `select` ends, and for each log what a `read` of it delivers and
what the memory from `buf` on held before. -/
structure Occasion where
  polled : Polled
  arrives : ℕ → List Byte
  buf : ℕ → Vector Byte 100
  behind : ℕ → List Byte

/-- What `buf` is printed as after a read of `data`, which is not terminated. -/
def Occasion.message (occasion : Occasion) (j : ℕ) (data : List Byte) : List Byte :=
  cString ((storePrefix data (occasion.buf j)).toList ++ occasion.behind j)

structure Entry where
  log : ℕ
  printed : List Byte
deriving DecidableEq

def readLog (occasion : Occasion) (j : ℕ) : Entry :=
  let data := (occasion.arrives j).take 100
  { log := j
    printed := literal "Logged: " ++
      if data.length > 0 then occasion.message j data ++ literal "\n" else [] }

def readLogs (logs : LogFds) (readset : Finset ℕ) (occasion : Occasion) : List Entry :=
  forUp 0 logs.number.toNat
    (fun j entries =>
      if logs.fd j ∈ readset then entries ++ [readLog occasion j] else entries) []

/-- One iteration of the loop, with the entries it prints. -/
def LogServer.pass (server : LogServer) (occasion : Occasion) : LogServer × List Entry :=
  let (retstatus, readset) :=
    select (server.interest.max + 1) server.interest.readset occasion.polled
  let entries := if retstatus > 0 then readLogs server.logs readset occasion else []
  ({ server with
      interest := Interest.fill (server.argc - 1) server.logs.fd
        { server.interest with readset } },
    entries)

/-- The server when it comes to an iteration, for all that has happened before. -/
def LogServer.after (server : LogServer) (occasions : ℕ → Occasion) : ℕ → LogServer
  | 0 => server
  | time + 1 => ((server.after occasions time).pass (occasions time)).1

def LogServer.readIn (server : LogServer) (occasion : Occasion) : List ℕ :=
  (server.pass occasion).2.map Entry.log

def LogServer.WatchesLogs (server : LogServer) (occasion : Occasion) (number : ℕ) : Prop :=
  WatchesAll number server.logs.fd server.interest occasion.polled (server.readIn occasion)

section Loop

variable {kernel : Kernel} {argv : List (List Byte)} {memory : ℕ → ℕ} {server : LogServer}
  {occasion : Occasion} {readset : Finset ℕ}

theorem mem_readLogs {logs : LogFds} {j : ℕ} (inside : j < logs.number.toNat)
    (reported : logs.fd j ∈ readset) : readLog occasion j ∈ readLogs logs readset occasion := by
  apply forUp_establish (readLog occasion j ∈ ·) (Nat.zero_le j) inside
  · intro entries
    rw [if_pos reported]
    exact List.mem_append_right _ (List.mem_singleton_self _)
  · intro other entries _ _ listed
    split
    · exact List.mem_append_left _ listed
    · exact listed

/-- What the loop keeps: it waits for the first `argc-1` descriptors. -/
structure LogServer.Waiting (server : LogServer) (argc : ℕ) (logs : LogFds) : Prop where
  arguments : server.argc = argc
  table : server.logs = logs
  watching : Watching (argc - 1) logs.fd server.interest

theorem LogServer.Waiting.pass {argc : ℕ} {logs : LogFds} (waiting : server.Waiting argc logs)
    (occasion : Occasion) : (server.pass occasion).1.Waiting argc logs := by
  constructor
  case arguments => exact waiting.arguments
  case table => exact waiting.table
  case watching =>
    simp only [LogServer.pass, waiting.arguments, waiting.table]
    exact waiting.watching.again _ _

theorem LogServer.Waiting.after {argc : ℕ} {logs : LogFds} (waiting : server.Waiting argc logs)
    (occasions : ℕ → Occasion) (time : ℕ) : (server.after occasions time).Waiting argc logs := by
  induction time with
  | zero => exact waiting
  | succ time ih => exact ih.pass (occasions time)

theorem bind_eq_ok {α β : Type} {call : Except Ended α} {next : α → Except Ended β} {result : β} :
    call >>= next = .ok result ↔ ∃ value, call = .ok value ∧ next value = .ok result := by
  cases call with
  | error ended => simp [bind, Except.bind]
  | ok value => simp [bind, Except.bind]

theorem startLogs_waiting (started : startLogs kernel argv memory = .ok server) :
    server.Waiting argv.length server.logs ∧
      ∃ argument, argv[1]? = some argument ∧ server.logs.number = atoiInt argument := by
  rw [startLogs] at started
  cases argument_eq : argv[1]? with
  | none =>
      rw [argument_eq] at started
      cases started
  | some argument =>
      simp only [argument_eq, bind_eq_ok] at started
      rcases started with ⟨fd, _, started⟩
      split at started
      case isTrue => cases started
      case isFalse =>
        cases started
        exact ⟨⟨rfl, rfl, watching_start _ _⟩, argument, rfl, rfl⟩

/-- When the first of the logs is the only one, the server waits for all there are. -/
theorem LogServer.Waiting.watchesLogs {logs : LogFds} (waiting : server.Waiting 2 logs)
    (single : logs.number = 1) (occasion : Occasion) : server.WatchesLogs occasion 1 := by
  have watching := waiting.watching
  rw [← waiting.table] at watching single
  apply watching.watchesAll
  intro positive j inside reported
  apply List.mem_map.mpr
  refine ⟨readLog occasion j, ?_, rfl⟩
  simp only [LogServer.pass, gt_iff_lt, if_pos positive]
  apply mem_readLogs _ reported
  omega

/-- A second log with a descriptor of its own is not waited for. -/
theorem LogServer.Waiting.not_watchesLogs {logs : LogFds} {number : ℕ}
    (waiting : server.Waiting 2 logs) (many : 2 ≤ number) (apart : logs.fd 0 ≠ logs.fd 1)
    (occasion : Occasion) : ¬ server.WatchesLogs occasion number := by
  intro watches
  have listed := watches.watched 1 many
  rw [waiting.table] at listed
  rcases waiting.watching.only _ listed with ⟨i, first, same⟩
  obtain rfl : i = 0 := by omega
  exact apart same

end Loop

/-- In every iteration, the server that was started with the number of logs as its argument watches
all of them exactly if there is one. -/
theorem logs_watched_iff (kernel : Kernel) (program argument : List Byte) (memory : ℕ → ℕ)
    (server : LogServer) (number : ℕ) (occasions : ℕ → Occasion) (time : ℕ)
    (counts : atoiInt argument = number) (positive : 1 ≤ number)
    (started : startLogs kernel [program, argument] memory = .ok server)
    (distinct : ∀ i < number, ∀ j < number, server.logs.fd i = server.logs.fd j → i = j) :
    (server.after occasions time).WatchesLogs (occasions time) number ↔ number = 1 := by
  have ⟨waiting, typed, argument_eq, number_eq⟩ := startLogs_waiting started
  cases argument_eq
  have waits := waiting.after occasions time
  constructor
  · intro watches
    by_contra several
    have many : 2 ≤ number := by omega
    have apart : server.logs.fd 0 ≠ server.logs.fd 1 := by
      intro same
      cases distinct 0 (by omega) 1 many same
    exact waits.not_watchesLogs many apart (occasions time) watches
  · rintro rfl
    exact waits.watchesLogs (number_eq.trans counts) (occasions time)

/-- Fifos are opened with the descriptors from 3 on. -/
def freshKernel : Kernel where
  mkfifo _ := 0
  openFifo name := if name = fifoName "logfifo" 0 then 3 else 4
  shmget := 7

def bothReadable : Occasion where
  polled := .ready {3, 4}
  arrives _ := literal "hello\x00"
  buf _ := Vector.replicate 100 0#8
  behind _ := []

theorem logs_watched_single :
    ∃ server, startLogs freshKernel [literal "logserver", literal "1"] (fun _ => 0) = .ok server ∧
      ((server.after (fun _ => bothReadable) 5).WatchesLogs bothReadable 1 ↔ 1 = 1) :=
  ⟨_, rfl, logs_watched_iff freshKernel (literal "logserver") (literal "1") (fun _ => 0) _ 1
    (fun _ => bothReadable) 5 (by decide) (by decide) rfl (by intros; omega)⟩

/-- Of two logs the second one is left out, although it can be read. -/
theorem second_log_unwatched :
    ∃ server, startLogs freshKernel [literal "logserver", literal "2"] (fun _ => 0) = .ok server ∧
      (∀ i < 2, ∀ j < 2, server.logs.fd i = server.logs.fd j → i = j) ∧
      server.logs.fd 1 ∉ server.interest.readset ∧
      server.readIn bothReadable = [0] ∧
      ¬ (server.after (fun _ => bothReadable) 0).WatchesLogs bothReadable 2 := by
  refine ⟨_, rfl, by decide, by decide, by decide, ?_⟩
  intro watches
  have listed := watches.watched 1 (by decide)
  revert listed
  decide

end NetLab.SelectServers
