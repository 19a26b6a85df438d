import NetLab.Posix.DescriptorTable
import Mathlib.Data.List.Forall2
import Mathlib.Order.Nat
import Mathlib.Tactic.Common

/-!
# The superservers

Four servers accept clients on one or three sockets and start a program for each, which finds the
connection as its standard input and output. They differ in what they close: `mid/inetd` and
`mid/superserver` close the connection in the parent and the sockets in the child, `end/dupserver`
and `end/selectserver` close nothing.
-/

namespace NetLab.Superserver

open NetLab.Posix

/-- What descriptors stand for. -/
inductive File (Client : Type*) where
  | terminal
  | listening (socket : ℕ)
  | connection (client : Client)
deriving DecidableEq

/-- The sockets have the descriptors from 3 on. The program for a socket goes by a number. -/
structure Server where
  sockets : ℕ
  program : ℕ → ℕ
  childCloses : Bool
  parentCloses : Bool

/-- `mid/inetd/server.c`, which starts `server1`, `server2` or `server3`. -/
def inetd : Server where
  sockets := 3
  program := fun i => i + 1
  childCloses := true
  parentCloses := true

/-- `mid/superserver/server.c`. -/
def superserver : Server where
  sockets := 1
  program := fun _ => 1
  childCloses := true
  parentCloses := true

/-- `end/dupserver/server.c`. -/
def dupserver : Server where
  sockets := 1
  program := fun _ => 1
  childCloses := false
  parentCloses := false

/-- `end/selectserver/mainserver.c`. -/
def selectserver : Server where
  sockets := 3
  program := fun _ => 1
  childCloses := false
  parentCloses := false

/-- The process of a client at the start of its program. -/
structure Child (Client : Type*) where
  program : ℕ
  table : DescriptorTable (File Client)

variable {Client : Type*}

namespace Server

/-- The first descriptor that is not in use when the server begins. -/
def base (server : Server) : ℕ :=
  3 + server.sockets

def start (server : Server) : DescriptorTable (File Client) := fun fd =>
  if fd < 3 then some .terminal
  else if fd < server.base then some (.listening (fd - 3))
  else none

/-- `for(i=0;i<3;i++) close(sfd[i]);` -/
def closeSockets (server : Server) (table : DescriptorTable (File Client)) :
    DescriptorTable (File Client) :=
  (List.range server.sockets).foldl (fun table i => table.closeFile (some (3 + i))) table

/-- One client on a socket: `accept`, `fork`, and what parent and child do then. -/
def serve (limit : ℕ) (server : Server) (table : DescriptorTable (File Client)) (socket : ℕ)
    (client : Client) : DescriptorTable (File Client) × Child Client :=
  let (nfd, accepted) := table.openFile limit (.connection client)
  let inherited := if server.childCloses = true then server.closeSockets accepted else accepted
  (if server.parentCloses = true then accepted.closeFile nfd else accepted,
    { program := server.program socket, table := (inherited.dup2 nfd 0).dup2 nfd 1 })

/-- The clients in the order in which they are accepted, each with its socket. -/
def serveAll (limit : ℕ) (server : Server) (table : DescriptorTable (File Client)) :
    List (ℕ × Client) → DescriptorTable (File Client) × List (Child Client)
  | [] => (table, [])
  | (socket, client) :: clients =>
      let (next, child) := server.serve limit table socket client
      let (final, children) := serveAll limit server next clients
      (final, child :: children)

/-- The table of a server that has not closed some connections. -/
def holding (server : Server) (held : List Client) : DescriptorTable (File Client) := fun fd =>
  if fd < server.base then server.start fd else held[fd - server.base]?.map .connection

end Server

/-- The program for the client's socket has the client as its input and output. -/
structure Serves (server : Server) (child : Child Client) (entry : ℕ × Client) : Prop where
  program : child.program = server.program entry.1
  input : child.table 0 = some (.connection entry.2)
  output : child.table 1 = some (.connection entry.2)

section Tables

variable {server : Server} {limit socket : ℕ} {held : List Client} {client : Client}
  {table : DescriptorTable (File Client)}

theorem holding_nil : server.holding ([] : List Client) = server.start := by
  funext fd
  rw [Server.holding]
  split_ifs with early
  · rfl
  · rw [List.getElem?_nil, Option.map_none, Server.start, if_neg, if_neg early]
    rw [Server.base] at early
    omega

theorem isSome_start {fd : ℕ} (early : fd < server.base) :
    (server.start fd : Option (File Client)).isSome = true := by
  rw [Server.start, if_pos early]
  split_ifs <;> rfl

theorem isSome_holding {fd : ℕ} (used : fd < server.base + held.length) :
    (server.holding held fd).isSome = true := by
  rw [Server.holding]
  split_ifs with early
  · exact isSome_start early
  · rw [Option.isSome_map, List.getElem?_eq_getElem (by omega), Option.isSome_some]

theorem holding_free : server.holding held (server.base + held.length) = none := by
  rw [Server.holding, if_neg (by omega), Nat.add_sub_cancel_left,
    List.getElem?_eq_none le_rfl, Option.map_none]

theorem update_holding :
    Function.update (server.holding held) (server.base + held.length) (some (.connection client)) =
      server.holding (held ++ [client]) := by
  funext fd
  rcases eq_or_ne fd (server.base + held.length) with rfl | apart
  · rw [Function.update_self, Server.holding, if_neg (by omega), Nat.add_sub_cancel_left,
      List.getElem?_concat_length, Option.map_some]
  · rw [Function.update_of_ne apart, Server.holding, Server.holding]
    split_ifs with early
    · rfl
    · rcases Nat.lt_or_ge (fd - server.base) held.length with inside | outside
      · rw [List.getElem?_append_left inside]
      · rw [List.getElem?_eq_none outside, List.getElem?_eq_none]
        rw [List.length_append, List.length_singleton]
        omega

theorem closeSockets_apply (fd : ℕ) : server.closeSockets table fd =
    if 3 ≤ fd ∧ fd < server.base then none else table fd := by
  rw [Server.closeSockets, Server.base]
  induction server.sockets with
  | zero =>
      rw [if_neg (by omega)]
      rfl
  | succ sockets ih =>
      rw [List.range_succ, List.foldl_append, List.foldl_cons, List.foldl_nil,
        DescriptorTable.closeFile]
      rcases eq_or_ne fd (3 + sockets) with rfl | apart
      · rw [Function.update_self, if_pos (by omega)]
      · rw [Function.update_of_ne apart, ih]
        split_ifs <;> first | rfl | omega

theorem dup2_open {old : ℕ} {file : File Client} (isOpen : table old = some file) (new : ℕ) :
    table.dup2 (some old) new = Function.update table new (some file) := by
  rw [DescriptorTable.dup2, Option.bind_some, isOpen]

/-- With a descriptor left, a client gets the next one, and the program for its socket. -/
theorem serve_room (room : server.base + held.length < limit) :
    (server.serve limit (server.holding held) socket client).1 =
        server.holding (if server.parentCloses = true then held else held ++ [client]) ∧
      Serves server (server.serve limit (server.holding held) socket client).2
        (socket, client) := by
  have lowest : (server.holding held).lowest limit = some (server.base + held.length) :=
    DescriptorTable.lowest_eq_some (fun _ used => isSome_holding used) holding_free room
  have opened : (server.holding held).openFile limit (.connection client) =
      (some (server.base + held.length), server.holding (held ++ [client])) := by
    rw [DescriptorTable.openFile, lowest, ← update_holding]
  have own : server.holding (held ++ [client]) (server.base + held.length) =
      some (.connection client) := by
    rw [← update_holding, Function.update_self]
  have apart : server.base + held.length ≠ 0 := by
    rw [Server.base]
    omega
  rw [Server.serve, opened]
  constructor
  case left =>
    simp only
    split_ifs
    · rw [← update_holding]
      exact DescriptorTable.closeFile_update holding_free
    · rfl
  case right =>
    have inherited : (if server.childCloses = true
        then server.closeSockets (server.holding (held ++ [client]))
        else server.holding (held ++ [client])) (server.base + held.length) =
          some (.connection client) := by
      split_ifs
      · rw [closeSockets_apply, if_neg (by omega), own]
      · exact own
    refine ⟨rfl, ?_, ?_⟩
    all_goals
      simp only
      rw [dup2_open inherited 0, dup2_open ((Function.update_of_ne apart _ _).trans inherited) 1]
    · rw [Function.update_of_ne (by decide), Function.update_self]
    · rw [Function.update_self]

/-- Without one, the program starts all the same, at the terminal of the server. -/
theorem serve_full (full : server.base + held.length = limit) :
    (server.serve limit (server.holding held) socket client).1 = server.holding held ∧
      (server.serve limit (server.holding held) socket client).2.table 0 = some .terminal := by
  have lowest : (server.holding held).lowest limit = none :=
    DescriptorTable.lowest_eq_none fun _ used => isSome_holding (used.trans_eq full.symm)
  have failed : (server.holding held).openFile limit (.connection client) =
      (none, server.holding held) := by
    rw [DescriptorTable.openFile, lowest]
  have terminal : (server.holding held) 0 = some .terminal := by
    have early : 0 < server.base := by
      rw [Server.base]
      omega
    rw [Server.holding, if_pos early]
    rfl
  rw [Server.serve, failed]
  constructor
  case left => exact ite_self _
  case right =>
    simp only [DescriptorTable.dup2, Option.bind_none]
    split_ifs
    · rw [closeSockets_apply, if_neg (by omega), terminal]
    · exact terminal

end Tables

section Runs

variable {server : Server} {limit : ℕ} {held : List Client} {clients : List (ℕ × Client)}

theorem serveAll_closing (closes : server.parentCloses = true) (room : server.base < limit) :
    (server.serveAll limit (server.holding []) clients).1 = server.holding [] ∧
      List.Forall₂ (Serves server) (server.serveAll limit (server.holding []) clients).2
        clients := by
  induction clients with
  | nil => exact ⟨rfl, .nil⟩
  | cons entry clients ih =>
      rcases entry with ⟨socket, client⟩
      rcases @serve_room Client server limit socket [] client room with ⟨next, serves⟩
      rw [if_pos closes] at next
      rw [Server.serveAll]
      simp only [next]
      exact ⟨ih.1, .cons serves ih.2⟩

theorem serveAll_keeping_iff (keeps : server.parentCloses = false)
    (within : server.base + held.length ≤ limit) :
    List.Forall₂ (Serves server) (server.serveAll limit (server.holding held) clients).2
        clients ↔
      server.base + held.length + clients.length ≤ limit := by
  induction clients generalizing held with
  | nil => simpa [Server.serveAll] using within
  | cons entry clients ih =>
      rcases entry with ⟨socket, client⟩
      rw [Server.serveAll, List.length_cons]
      simp only
      rw [List.forall₂_cons]
      rcases within.lt_or_eq with room | full
      · rcases @serve_room Client server limit socket held client room with ⟨next, serves⟩
        rw [keeps, if_neg (by decide)] at next
        have more : server.base + (held ++ [client]).length ≤ limit := by
          rw [List.length_append, List.length_singleton]
          omega
        rw [next, ih more, List.length_append, List.length_singleton]
        constructor
        case mp =>
          rintro ⟨_, enough⟩
          omega
        case mpr =>
          intro enough
          exact ⟨serves, by omega⟩
      · rcases @serve_full Client server limit socket held client full with ⟨_, terminal⟩
        constructor
        case mp =>
          rintro ⟨serves, _⟩
          cases terminal.symm.trans serves.input
        case mpr =>
          intro enough
          omega

end Runs

/-- Every client is the input and output of the program for its socket, whoever came before, exactly
when the server closes the connections it has given away or the clients are not more than the
descriptors it has left. -/
theorem clients_served_iff (server : Server) (limit : ℕ) (clients : List (ℕ × Client))
    (room : server.base < limit) :
    List.Forall₂ (Serves server) (server.serveAll limit server.start clients).2 clients ↔
      server.parentCloses = true ∨ clients.length ≤ limit - server.base := by
  rw [← holding_nil]
  cases closes : server.parentCloses with
  | true => simpa using (serveAll_closing closes room).2
  | false =>
      rw [serveAll_keeping_iff closes (by simpa using room.le), List.length_nil, Nat.add_zero]
      simp only [Bool.false_eq_true, false_or]
      omega

theorem clients_served_two :
    ¬ List.Forall₂ (Serves dupserver)
      (dupserver.serveAll 5 dupserver.start [(0, true), (0, false)]).2 [(0, true), (0, false)] := by
  rw [clients_served_iff dupserver 5 _ (by decide)]
  decide

/-! ## What else the programs hold -/

/-- The program holds nothing but the terminal and its own client. -/
def Private (child : Child Client) (entry : ℕ × Client) : Prop :=
  ∀ fd file, child.table fd = some file → file = .terminal ∨ file = .connection entry.2

section Private

variable {server : Server} {limit socket fd : ℕ} {held : List Client} {client other : Client}
  {clients : List (ℕ × Client)} {table : DescriptorTable (File Client)}

theorem dup2_of_ne {old : Option ℕ} {new : ℕ} (apart : fd ≠ new) :
    table.dup2 old new fd = table fd := by
  rw [DescriptorTable.dup2]
  cases old.bind table with
  | some copied => exact Function.update_of_ne apart _ _
  | none => rfl

/-- Beyond input and output the program has what the server has, but for the sockets. -/
theorem serve_inherits (within : server.base + held.length ≤ limit) (beyond : 2 ≤ fd) :
    ∃ later, (later = held ∨ later = held ++ [client]) ∧
      (server.serve limit (server.holding held) socket client).2.table fd =
        if server.childCloses = true ∧ 3 ≤ fd ∧ fd < server.base then none
        else server.holding later fd := by
  have accepted : ∃ nfd later, (later = held ∨ later = held ++ [client]) ∧
      (server.holding held).openFile limit (.connection client) =
        (nfd, server.holding later) := by
    rcases Nat.lt_or_eq_of_le within with room | full
    · refine ⟨some (server.base + held.length), held ++ [client], Or.inr rfl, ?_⟩
      rw [DescriptorTable.openFile, DescriptorTable.lowest_eq_some
        (fun _ used => isSome_holding used) holding_free room, ← update_holding]
    · refine ⟨none, held, Or.inl rfl, ?_⟩
      rw [DescriptorTable.openFile, DescriptorTable.lowest_eq_none fun _ used =>
        isSome_holding (used.trans_eq full.symm)]
  rcases accepted with ⟨nfd, later, either, opened⟩
  refine ⟨later, either, ?_⟩
  rw [Server.serve, opened]
  simp only
  rw [dup2_of_ne (by omega), dup2_of_ne (by omega)]
  cases server.childCloses with
  | true => simp only [if_true, closeSockets_apply, true_and]
  | false => simp only [Bool.false_eq_true, if_false, false_and]

theorem private_closing (childCloses : server.childCloses = true) (room : server.base < limit) :
    Private (server.serve limit (server.holding []) socket client).2 (socket, client) := by
  intro fd file found
  rcases (@serve_room Client server limit socket [] client room).2 with ⟨_, input, output⟩
  rcases Nat.lt_or_ge fd 2 with early | beyond
  · have isFirst : fd = 0 ∨ fd = 1 := by omega
    rcases isFirst with rfl | rfl
    · exact Or.inr (Option.some.inj (found.symm.trans input))
    · exact Or.inr (Option.some.inj (found.symm.trans output))
  · rcases @serve_inherits Client server limit socket fd [] client room.le beyond with
      ⟨later, either, table⟩
    rw [found, childCloses] at table
    by_cases low : fd < server.base
    · have isError : fd = 2 := by
        by_contra other
        rw [if_pos ⟨rfl, by omega, low⟩] at table
        cases table
      subst isError
      rw [if_neg (by omega), Server.holding, if_pos low] at table
      exact Or.inl (Option.some.inj table)
    · rw [if_neg (by omega), Server.holding, if_neg low] at table
      rcases either with rfl | rfl
      · cases table
      · rcases Option.map_eq_some_iff.mp table.symm with ⟨own, listed, rfl⟩
        have mem := List.mem_of_getElem? listed
        rw [List.nil_append, List.mem_singleton] at mem
        exact Or.inr (congrArg File.connection mem)

/-- A server that keeps its sockets in the child shows the program the first of them. -/
theorem not_private_of_sockets (keeps : server.childCloses = false) (some : 0 < server.sockets)
    (within : server.base + held.length ≤ limit) :
    ¬ Private (server.serve limit (server.holding held) socket client).2 (socket, client) := by
  intro isPrivate
  rcases @serve_inherits Client server limit socket 3 held client within (by decide) with
    ⟨later, _, table⟩
  have low : 3 < server.base := by
    rw [Server.base]
    omega
  rw [keeps, if_neg (by simp), Server.holding, if_pos low, Server.start, if_neg (by decide),
    if_pos low] at table
  rcases isPrivate 3 _ table with terminal | connection
  · cases terminal
  · cases connection

/-- A server that keeps a connection shows it to the programs of later clients. -/
theorem not_private_of_held (apart : other ≠ client)
    (within : server.base + (other :: held).length ≤ limit) :
    ¬ Private (server.serve limit (server.holding (other :: held)) socket client).2
      (socket, client) := by
  intro isPrivate
  have high : 2 ≤ server.base := by
    rw [Server.base]
    omega
  rcases @serve_inherits Client server limit socket server.base (other :: held) client within
    high with ⟨later, either, table⟩
  have first : server.holding later server.base = some (.connection other) := by
    rw [Server.holding, if_neg (lt_irrefl _), Nat.sub_self]
    rcases either with rfl | rfl <;> rfl
  rw [if_neg (by omega), first] at table
  rcases isPrivate server.base _ table with terminal | connection
  · cases terminal
  · exact apart (File.connection.inj connection)

theorem serveAll_private (childCloses : server.childCloses = true)
    (parentCloses : server.parentCloses = true) (room : server.base < limit) :
    List.Forall₂ Private (server.serveAll limit (server.holding []) clients).2 clients := by
  induction clients with
  | nil => exact .nil
  | cons entry clients ih =>
      rcases entry with ⟨socket, client⟩
      have next := (@serve_room Client server limit socket [] client room).1
      rw [if_pos parentCloses] at next
      rw [Server.serveAll]
      simp only [next]
      exact .cons (private_closing childCloses room) ih

end Private

/-- The programs of different clients hold nothing but the terminal and their own client exactly
when the server closes both what it says it closes, except where there is nothing to close. -/
theorem clients_private_iff (server : Server) (limit : ℕ) (clients : List (ℕ × Client))
    (some : 0 < server.sockets) (room : server.base < limit)
    (different : (clients.map Prod.snd).Nodup) :
    List.Forall₂ Private (server.serveAll limit server.start clients).2 clients ↔
      clients = [] ∨
        server.childCloses = true ∧ (server.parentCloses = true ∨ clients.length = 1) := by
  rw [← holding_nil]
  cases childCloses : server.childCloses with
  | false =>
      cases clients with
      | nil => simp [Server.serveAll]
      | cons entry clients =>
          rcases entry with ⟨socket, client⟩
          have shown := @not_private_of_sockets Client server limit socket [] client childCloses
            some room.le
          rw [Server.serveAll]
          simp only [List.forall₂_cons, shown]
          simp
  | true =>
      cases parentCloses : server.parentCloses with
      | true => simpa using serveAll_private childCloses parentCloses room
      | false =>
          rcases clients with _ | ⟨⟨socket, client⟩, _ | ⟨⟨second, later⟩, clients⟩⟩
          · simp [Server.serveAll]
          · have own := @private_closing Client server limit socket client childCloses room
            simpa [Server.serveAll] using own
          · have next := (@serve_room Client server limit socket [] client room).1
            rw [parentCloses, if_neg (by decide), List.nil_append] at next
            have apart : client ≠ later := by
              simp only [List.map_cons, List.nodup_cons, List.mem_cons, not_or] at different
              exact different.1.1
            have shown := @not_private_of_held Client server limit second [] later client apart room
            simp only [Server.serveAll, next, List.forall₂_cons, shown]
            simp

theorem clients_private_inetd :
    List.Forall₂ Private (inetd.serveAll 8 inetd.start [(2, true), (0, false)]).2
      [(2, true), (0, false)] := by
  rw [clients_private_iff inetd 8 _ (by decide) (by decide) (by decide)]
  decide

end NetLab.Superserver
