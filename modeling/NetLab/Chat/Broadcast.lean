import NetLab.Imperative.Loop
import NetLab.Posix.Bytes

/-!
# The broadcast of the FIFO chat servers

The servers of `chatserver` and `selectservers/chatserver` differ in how they wait.
What they do with a descriptor that is ready is the same: one block is read into
`readbuf` and written to the fifo of every other client, and `readbuf` is cleared
each time it was written.
-/

namespace NetLab.Chat

open NetLab.Imperative NetLab.Posix

/-- The room in `fdA`. -/
def maxClients : ℕ :=
  10

structure Written where
  client : ℕ
  block : Vector Byte 100
deriving DecidableEq, Repr

/-- A server that has opened the fifos of its clients. Their number has to fit in `fdA`. -/
structure Server where
  clients : ℕ
  fits : clients ≤ maxClients
  readbuf : Vector Byte 100

/-- Opening the fifos, one for each argument. Writing past the end of `fdA` is an error. -/
def Server.start (clients : ℕ) (readbuf : Vector Byte 100) : Option Server :=
  if fits : clients ≤ maxClients then some { clients, fits, readbuf } else none

/-- The body of the loop over the clients: `readbuf`, and what was written so far. -/
def broadcastPass (i j : ℕ) (state : Vector Byte 100 × List Written) :
    Vector Byte 100 × List Written :=
  if j ≠ i then
    (Vector.replicate 100 0#8, state.2 ++ [{ client := j, block := state.1 }])
  else state

def broadcast (clients i : ℕ) (readbuf : Vector Byte 100) : Vector Byte 100 × List Written :=
  forUp 0 clients (broadcastPass i) (readbuf, [])

/-- What is done when client `i` has sent `message`: the server afterwards, and what it has
written. -/
def Server.handle (server : Server) (i : ℕ) (message : List Byte) : Server × List Written :=
  let (readbuf, written) := broadcast server.clients i (storePrefix message server.readbuf)
  ({ server with readbuf }, written)

def writtenTo (written : List Written) (client : ℕ) : List (Vector Byte 100) :=
  (written.filter fun entry => entry.client = client).map Written.block

/-- Each other client is sent the block that was read, once, and the sender nothing. -/
def Delivers (clients i : ℕ) (message : List Byte) (readbuf : Vector Byte 100) : Prop :=
  ∃ server, Server.start clients readbuf = some server ∧
    ∀ j < clients, writtenTo (server.handle i message).2 j =
      if j = i then [] else [storePrefix message readbuf]

def firstOther (i : ℕ) : ℕ :=
  if i = 0 then 1 else 0

section Broadcast

variable {clients i : ℕ} {readbuf : Vector Byte 100}

theorem writtenTo_append (written : List Written) (entry : Written) (client : ℕ) :
    writtenTo (written ++ [entry]) client =
      writtenTo written client ++ if entry.client = client then [entry.block] else [] := by
  rw [writtenTo, List.filter_append, List.map_append, writtenTo]
  split
  case isTrue same => simp [same]
  case isFalse other => simp [other]

theorem firstOther_ne (i : ℕ) : firstOther i ≠ i := by
  rw [firstOther]
  split <;> omega

theorem firstOther_le {j : ℕ} (other : j ≠ i) : firstOther i ≤ j := by
  rw [firstOther]
  split <;> omega

theorem exists_third (i : ℕ) : ∃ j ≤ 2, j ≠ i ∧ j ≠ firstOther i := by
  rw [firstOther]
  rcases Nat.lt_or_ge i 2 with low | high
  · refine ⟨2, le_rfl, by omega, ?_⟩
    split <;> omega
  · exact ⟨1, by decide, by omega, by rw [if_neg (by omega)]; decide⟩

/-- The loop has come to the client `bound`. Of those below it, only the first was sent the block;
the rest were sent zeros. -/
structure Swept (i : ℕ) (block : Vector Byte 100) (bound : ℕ)
    (state : Vector Byte 100 × List Written) : Prop where
  readbuf : state.1 = if firstOther i < bound then Vector.replicate 100 0#8 else block
  sent : ∀ client, writtenTo state.2 client =
    if client < bound ∧ client ≠ i then
      [if client = firstOther i then block else Vector.replicate 100 0#8]
    else []

theorem swept_pass {block : Vector Byte 100} {j : ℕ} {state : Vector Byte 100 × List Written}
    (swept : Swept i block j state) : Swept i block (j + 1) (broadcastPass i j state) := by
  rw [broadcastPass]
  split
  case isTrue other =>
    have first := firstOther_le other
    constructor
    case readbuf => rw [if_pos (by omega)]
    case sent =>
      intro client
      rw [writtenTo_append, swept.sent, swept.readbuf]
      rcases eq_or_ne j client with rfl | apart
      · have fresh : firstOther i < j ↔ j ≠ firstOther i := by omega
        simp [other, fresh]
      · have same : client < j + 1 ↔ client < j := by omega
        simp [apart, same]
  case isFalse same =>
    rw [not_not.mp same] at swept ⊢
    have apart := firstOther_ne i
    constructor
    case readbuf =>
      rw [swept.readbuf]
      apply if_congr _ rfl rfl
      omega
    case sent =>
      intro client
      rw [swept.sent]
      apply if_congr _ rfl rfl
      omega

theorem swept_broadcast (clients i : ℕ) (block : Vector Byte 100) :
    Swept i block clients (broadcast clients i block) := by
  apply forUp_induction (Swept i block) (Nat.zero_le clients)
  · exact ⟨rfl, fun client => rfl⟩
  · intro j state _ _ swept
    exact swept_pass swept

theorem delivers_iff_forall (message : List Byte) :
    Delivers clients i message readbuf ↔ clients ≤ maxClients ∧
      ∀ j < clients, j ≠ i → j ≠ firstOther i →
        storePrefix message readbuf = Vector.replicate 100 0#8 := by
  have swept := swept_broadcast clients i (storePrefix message readbuf)
  rw [Delivers, Server.start]
  split
  case isTrue fits =>
    simp only [Option.some.injEq, exists_eq_left', fits, true_and, Server.handle, swept.sent]
    apply forall_congr'
    intro j
    apply imp_congr_right
    intro below
    by_cases self : j = i
    · simp [self]
    · by_cases first : j = firstOther i
      · simp [first, first ▸ below, firstOther_ne]
      · simp [self, first, below, eq_comm]
  case isFalse full => simp [full]

end Broadcast

/-- The broadcast delivers exactly when there is room for the clients, and either there is only one
to deliver to or the block is all zeros. -/
theorem delivers_iff (clients i : ℕ) (message : List Byte) (readbuf : Vector Byte 100)
    (sender : i < clients) :
    Delivers clients i message readbuf ↔
      clients ≤ maxClients ∧
        (clients ≤ 2 ∨ storePrefix message readbuf = Vector.replicate 100 0#8) := by
  rw [delivers_iff_forall]
  apply and_congr_right
  intro _
  constructor
  · intro zeros
    rcases Nat.lt_or_ge 2 clients with many | few
    · have ⟨j, among, other, notFirst⟩ := exists_third i
      exact Or.inr (zeros j (by omega) other notFirst)
    · exact Or.inl few
  · rintro (few | zeros) j below other notFirst
    · have first := firstOther_le other
      have apart := firstOther_ne i
      omega
    · exact zeros

theorem delivers_between_two :
    Delivers 2 0 [0x68#8, 0x69#8] (Vector.replicate 100 0#8) :=
  (delivers_iff 2 0 [0x68#8, 0x69#8] (Vector.replicate 100 0#8) (by decide)).mpr
    ⟨by decide, Or.inl le_rfl⟩

/-- With three clients, the last one is sent zeros. -/
theorem not_delivers_among_three :
    ¬ Delivers 3 0 [0x68#8, 0x69#8] (Vector.replicate 100 0#8) := by
  rw [delivers_iff_forall]
  intro delivered
  have lost := delivered.2 2 (by decide) (by decide) (by decide)
  have first := congrArg (fun block : Vector Byte 100 => block[0]) lost
  simp [getElem_storePrefix] at first

end NetLab.Chat
