import NetLab.Posix.Text
import Mathlib.Logic.Function.Basic

/-!
# The main server and the client of `serviceserver`

A client asks the main server for one of the service servers, whose fifos are
numbered from 0, and gives it back when its user quits. The threads are given by
one round of their loops. The table of the servers and the messages are taken as
long as they need to be, and what is printed is left out.
-/

namespace NetLab.ServiceServer

open NetLab.Posix

/-- The globals of `mainserver.c`. A server is free when its `status` is 0. -/
structure MainServer where
  status : ℕ → ℤ
  count : ℕ
  start : ℕ
  gotserver : ℤ

def MainServer.initial (number : ℕ) : MainServer where
  status := fun _ => 0
  count := number
  start := 0
  gotserver := 0

/-- `"%s%d|%d"` with `"serverfifo"` and twice the number of the server. -/
def assignment (start : ℕ) : List Byte :=
  literal "serverfifo" ++ decimal start ++ literal "|" ++ decimal start

/-- The loop that looks for a free server. Without one, `start` keeps its value. -/
def MainServer.freeServer (server : MainServer) : ℕ :=
  ((List.range server.count).find? fun j => server.status j = 0).getD server.start

/-- A round of `thread_write`, with the message it writes. -/
def MainServer.threadWrite (server : MainServer) : Option (List Byte) × MainServer :=
  if server.gotserver = 1 then
    let start := server.freeServer
    (some (assignment start),
      { server with
        gotserver := 0
        start
        status := Function.update server.status start 1 })
  else (none, server)

/-- A round of `thread_read` that has read the string `buf`. -/
def MainServer.threadRead (server : MainServer) (buf : List Byte) : MainServer :=
  if buf = literal "server" then { server with gotserver := 1 }
  else
    -- The assignment takes the value of the comparison, not the number.
    let j := if atoi buf ≠ 0 then 1 else 0
    if j ≠ 0 then { server with status := Function.update server.status (j - 1) 0 } else server

/-- The globals of `client.c`: the names of the fifos behind `fd` and `writefd`, and the number it
will give back. -/
structure Client where
  fd : List Byte
  writefd : List Byte
  serverNo : ℤ

def Client.start : Client where
  fd := literal "clientfifo"
  writefd := literal "clientfifowrite"
  serverNo := 0

/-- What `thread_write` of the client sends first. -/
def Client.request : List Byte :=
  literal "server"

/-- The round of `thread_read` of the client that has read `buftemp`. -/
def Client.threadRead (client : Client) (buftemp : List Byte) : Client :=
  let name := strtok (literal "|") buftemp
  let number := name.bind fun field => strtok (literal ",") field.2
  { fd := (name.map Prod.fst).getD client.fd
    -- The name is built from the number, which `buf` points to by now.
    writefd := (number.map Prod.fst).getD (literal "(null)") ++ literal "write"
    serverNo := (number.map fun field => atoi field.1 + 1).getD client.serverNo }

/-- What `thread_write` of the client sends to `clientfifo` when the user types `quit`. -/
def Client.quitMessage (client : Client) : List Byte :=
  decimal client.serverNo

section Messages

variable {k : ℕ}

theorem plain_decimal {delimiters : List Byte} (apart : ∀ byte ∈ delimiters, isDigit byte = false) :
    ∀ byte ∈ decimal k, byte ∉ delimiters := by
  intro byte inside delimiter
  have digit := isDigit_of_mem_decimal (Int.natCast_nonneg k) inside
  cases digit.symm.trans (apart byte delimiter)

/-- The client takes the fifo and, one higher, the number of its server from the assignment. -/
theorem threadRead_assignment (client : Client) :
    (client.threadRead (assignment k)).fd = literal "serverfifo" ++ decimal k ∧
      (client.threadRead (assignment k)).serverNo = k + 1 := by
  have name : strtok (literal "|") (assignment k) =
      some (literal "serverfifo" ++ decimal k, decimal k) := by
    have split : assignment k = literal "serverfifo" ++ decimal k ++ 0x7C#8 :: decimal k :=
      List.append_assoc _ _ _
    rw [split]
    apply strtok_field
    · exact List.append_ne_nil_of_right_ne_nil _ (decimal_ne_nil _)
    · intro byte inside
      rcases List.mem_append.mp inside with letter | digit
      · exact (by decide : ∀ byte ∈ literal "serverfifo", byte ∉ literal "|") byte letter
      · exact plain_decimal (by decide) byte digit
    · exact List.mem_singleton.mpr rfl
  have number : strtok (literal ",") (decimal k) = some (decimal k, []) :=
    strtok_last (decimal_ne_nil _) (plain_decimal (by decide))
  simp only [Client.threadRead, name, number, Option.bind_some, Option.map_some, Option.getD_some,
    atoi_decimal, and_self]

theorem quitMessage_assignment (client : Client) :
    (client.threadRead (assignment k)).quitMessage = decimal (k + 1) :=
  congrArg decimal (threadRead_assignment client).2

@[simp]
theorem threadRead_request (server : MainServer) :
    server.threadRead Client.request = { server with gotserver := 1 } :=
  if_pos rfl

/-- Whatever number a client gives back, the main server frees the server with the number 0. -/
theorem threadRead_decimal (server : MainServer) :
    server.threadRead (decimal (k + 1)) =
      { server with status := Function.update server.status 0 0 } := by
  have other : decimal (k + 1) ≠ literal "server" := by
    intro same
    have letter : 0x73#8 ∈ decimal (k + 1) := by
      rw [same]
      exact List.mem_cons_self
    cases isDigit_of_mem_decimal (by omega) letter
  have nonzero : atoi (decimal (k + 1)) ≠ 0 := by
    rw [atoi_decimal]
    omega
  rw [MainServer.threadRead, if_neg other]
  simp only [if_pos nonzero]
  rfl

theorem threadRead_quitMessage (server : MainServer) (client : Client) :
    server.threadRead (client.threadRead (assignment k)).quitMessage =
      { server with status := Function.update server.status 0 0 } := by
  rw [quitMessage_assignment, threadRead_decimal]

end Messages

theorem freeServer_spec (server : MainServer) :
    (server.status server.freeServer = 0 ∧ server.freeServer < server.count ∧
      ∀ j < server.freeServer, server.status j ≠ 0) ∨
    ((∀ j < server.count, server.status j ≠ 0) ∧ server.freeServer = server.start) := by
  rw [MainServer.freeServer]
  cases found : (List.range server.count).find? fun j => server.status j = 0 with
  | none =>
      right
      refine ⟨fun j inside => ?_, rfl⟩
      simpa using List.find?_range_eq_none.mp found j inside
  | some j =>
      left
      rcases List.find?_range_eq_some.mp found with ⟨free, inside, taken⟩
      refine ⟨of_decide_eq_true free, List.mem_range.mp inside, fun other before => ?_⟩
      simpa using taken other before

end NetLab.ServiceServer
