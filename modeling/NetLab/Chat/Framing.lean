import NetLab.Posix.Text
import NetLab.Systems.Runs

/-!
# The blocks of the select chat server

A client writes blocks of 100 bytes. The server makes a text of each and writes it to
the other clients in a block of 200 bytes, of which a client reads 100 at a time. So
each message is shown in two lines, and the second one is what the end of the block
held.
-/

namespace NetLab.Chat

open NetLab.Posix NetLab.Systems

/-- What `fgets` with room for 100 bytes stores, less the terminator. -/
structure Line where
  text : List Byte
  short : text.length ≤ 99
  plain : 0#8 ∉ text

/-- `read` from a fifo: the buffer, and what is left in the fifo. -/
def readInto {length : ℕ} (fifo : List Byte) (buf : Vector Byte length) :
    Vector Byte length × List Byte :=
  (storePrefix (fifo.take length) buf, fifo.drop length)

/-- The server, the clients and the fifos between them. The last two fields only record what was
typed and not yet handled, and which texts a client is to show. -/
structure Room (n : ℕ) where
  message : Vector Byte 200
  fd : Fin n → List Byte
  writefd : Fin n → List Byte
  typing : Fin n → Vector Byte 100
  reading : Fin n → Vector Byte 100
  displayed : Fin n → List (List Byte)
  pending : Fin n → List (List Byte)
  sent : Fin n → List (List Byte)

/-- A message is typed; the server handles a descriptor, with what its `buf` held; a client reads,
with what stands behind its `buf`. -/
inductive Event (n : ℕ) where
  | threadWrite (user : Fin n) (line : Line)
  | serve (user : Fin n) (buf : Vector Byte 100)
  | threadRead (user : Fin n) (beyond : List Byte)

def Event.IsTyped {n : ℕ} : Event n → Prop
  | .threadWrite _ _ => True
  | .serve _ _ => False
  | .threadRead _ _ => False

/-- `"User %d: %s"` -/
def userText {n : ℕ} (user : Fin n) (text : List Byte) : List Byte :=
  literal "User " ++ decimal (user : ℕ) ++ literal ": " ++ text

namespace Room

variable {n : ℕ}

/-- Nothing was typed yet; the buffers have any contents. -/
def start (message : Vector Byte 200) (typing reading : Fin n → Vector Byte 100) : Room n where
  message
  fd := fun _ => []
  writefd := fun _ => []
  typing
  reading
  displayed := fun _ => []
  pending := fun _ => []
  sent := fun _ => []

/-- A round of the loop of `thread_write`. -/
def threadWrite (room : Room n) (user : Fin n) (line : Line) : Room n :=
  let message := storePrefix (line.text ++ [0#8]) (room.typing user)
  { room with
    typing := Function.update room.typing user message
    fd := Function.update room.fd user (room.fd user ++ message.toList)
    pending := Function.update room.pending user (room.pending user ++ [line.text]) }

/-- What the server does with a descriptor that is ready. -/
def serve (room : Room n) (user : Fin n) (buf : Vector Byte 100) : Room n :=
  let (buf, rest) := readInto (room.fd user) buf
  let text := userText user (cString buf.toList)
  let message := storePrefix (text.take 199 ++ [0#8]) room.message
  { room with
    message
    fd := Function.update room.fd user rest
    writefd := fun k => if k ≠ user then room.writefd k ++ message.toList else room.writefd k
    pending := Function.update room.pending user (room.pending user).tail
    sent := fun k =>
      if k ≠ user then room.sent k ++ ((room.pending user).take 1).map (userText user)
      else room.sent k }

/-- A round of the loop of `thread_read` in which something was read. -/
def threadRead (room : Room n) (user : Fin n) (beyond : List Byte) : Room n :=
  let (buf, rest) := readInto (room.writefd user) (room.reading user)
  { room with
    reading := Function.update room.reading user buf
    writefd := Function.update room.writefd user rest
    displayed := Function.update room.displayed user
      (room.displayed user ++ [cString (buf.toList ++ beyond)]) }

def step (room : Room n) : Event n → Option (Room n)
  | .threadWrite user line => some (room.threadWrite user line)
  | .serve user buf => if room.fd user = [] then none else some (room.serve user buf)
  | .threadRead user beyond =>
      if room.writefd user = [] then none else some (room.threadRead user beyond)

def Quiet (room : Room n) : Prop :=
  ∀ k, room.fd k = [] ∧ room.writefd k = []

/-- Every client has shown the texts of the other ones' messages, and nothing else. -/
def Agrees (room : Room n) : Prop :=
  ∀ k, room.displayed k = room.sent k

/-- The bytes in the fifos, by the messages they belong to. A line is shown for each 100 bytes. -/
structure Counted (room : Room n) : Prop where
  fd : ∀ k, (room.fd k).length = 100 * (room.pending k).length
  writefd : ∀ k, 100 * (room.displayed k).length + (room.writefd k).length =
    200 * (room.sent k).length

/-- Nothing is waiting for the server, and no client was to show anything. -/
def Idle (room : Room n) : Prop :=
  ∀ k, room.pending k = [] ∧ room.sent k = []

section Steps

variable {room next final : Room n} {event : Event n} {events : List (Event n)}
  {message : Vector Byte 200} {typing reading : Fin n → Vector Byte 100}

theorem counted_start : (start message typing reading).Counted :=
  ⟨fun _ => rfl, fun _ => rfl⟩

theorem Counted.threadWrite (counted : room.Counted) (user : Fin n) (line : Line) :
    (room.threadWrite user line).Counted := by
  constructor
  case fd =>
    intro k
    simp only [Room.threadWrite, Function.update_apply]
    split
    case isTrue => simp [counted.fd user, Nat.mul_add]
    case isFalse => exact counted.fd k
  case writefd => exact counted.writefd

theorem Counted.serve (counted : room.Counted) {user : Fin n} (ready : room.fd user ≠ [])
    (buf : Vector Byte 100) : (room.serve user buf).Counted := by
  have here := counted.fd user
  have waiting := List.length_pos_iff.mpr ready
  constructor
  case fd =>
    intro k
    simp only [Room.serve, readInto, Function.update_apply]
    split
    case isTrue =>
      simp only [List.length_drop, List.length_tail]
      omega
    case isFalse => exact counted.fd k
  case writefd =>
    intro k
    have there := counted.writefd k
    simp only [Room.serve]
    split
    case isTrue =>
      simp only [List.length_append, Vector.length_toList, List.length_map, List.length_take]
      omega
    case isFalse => exact there

theorem Counted.threadRead (counted : room.Counted) {user : Fin n}
    (ready : room.writefd user ≠ []) (beyond : List Byte) :
    (room.threadRead user beyond).Counted := by
  have waiting := List.length_pos_iff.mpr ready
  constructor
  case fd => exact counted.fd
  case writefd =>
    intro k
    have there := counted.writefd k
    simp only [Room.threadRead, readInto, Function.update_apply]
    split
    case isTrue same =>
      subst same
      simp only [List.length_append, List.length_singleton, List.length_drop]
      omega
    case isFalse => exact there

theorem step_cases (taken : room.step event = some next) :
    (∃ user line, event = .threadWrite user line ∧ next = room.threadWrite user line) ∨
    (∃ user buf, event = .serve user buf ∧ room.fd user ≠ [] ∧ next = room.serve user buf) ∨
    (∃ user beyond, event = .threadRead user beyond ∧ room.writefd user ≠ [] ∧
      next = room.threadRead user beyond) := by
  cases event with
  | threadWrite user line => exact Or.inl ⟨user, line, rfl, (Option.some.inj taken).symm⟩
  | serve user buf =>
      rw [step] at taken
      split at taken
      case isTrue => cases taken
      case isFalse ready =>
        exact Or.inr (Or.inl ⟨user, buf, rfl, ready, (Option.some.inj taken).symm⟩)
  | threadRead user beyond =>
      rw [step] at taken
      split at taken
      case isTrue => cases taken
      case isFalse ready =>
        exact Or.inr (Or.inr ⟨user, beyond, rfl, ready, (Option.some.inj taken).symm⟩)

theorem counted_step (counted : room.Counted) (taken : room.step event = some next) :
    next.Counted := by
  rcases step_cases taken with ⟨user, line, rfl, rfl⟩ | ⟨user, buf, rfl, ready, rfl⟩ |
    ⟨user, beyond, rfl, ready, rfl⟩
  · exact counted.threadWrite user line
  · exact counted.serve ready buf
  · exact counted.threadRead ready beyond

/-- With two clients there is always one to tell. -/
theorem idle_step (several : 2 ≤ n) (counted : room.Counted)
    (taken : room.step event = some next) : next.Idle ↔ room.Idle ∧ ¬ event.IsTyped := by
  rcases step_cases taken with ⟨user, line, rfl, rfl⟩ | ⟨user, buf, rfl, ready, rfl⟩ |
    ⟨user, beyond, rfl, ready, rfl⟩
  · apply iff_of_false
    · intro idle
      have none := (idle user).1
      simp [threadWrite] at none
    · exact fun idle => idle.2 trivial
  · have waiting : room.pending user ≠ [] := by
      intro none
      have length := counted.fd user
      rw [none, List.length_nil, Nat.mul_zero] at length
      exact ready (List.eq_nil_of_length_eq_zero length)
    apply iff_of_false
    · intro idle
      have ⟨other, apart⟩ : ∃ other : Fin n, other ≠ user :=
        have := Fin.nontrivial_iff_two_le.mpr several
        exists_ne user
      have none := (idle other).2
      simp [serve, apart, waiting] at none
    · exact fun idle => waiting (idle.1 user).1
  · simp [Idle, threadRead, Event.IsTyped]

theorem counted_run (reached : run step (start message typing reading) events = some final) :
    final.Counted :=
  run_invariant Counted counted_start (fun _ _ _ => counted_step) reached

/-- Two lines are shown for each message. -/
theorem Counted.length_displayed (counted : room.Counted) (quiet : room.Quiet) (k : Fin n) :
    (room.displayed k).length = 2 * (room.sent k).length := by
  have shown := counted.writefd k
  rw [(quiet k).2, List.length_nil] at shown
  omega

theorem Counted.pending_eq_nil (counted : room.Counted) (quiet : room.Quiet) (k : Fin n) :
    room.pending k = [] := by
  have unhandled := counted.fd k
  rw [(quiet k).1, List.length_nil] at unhandled
  exact List.eq_nil_of_length_eq_zero (by omega)

/-- When all is read, the clients agree only if there was nothing to show. -/
theorem Counted.agrees_iff_idle (counted : room.Counted) (quiet : room.Quiet) :
    room.Agrees ↔ room.Idle := by
  have lines := counted.length_displayed quiet
  constructor
  · intro agrees k
    have same := lines k
    rw [agrees k] at same
    exact ⟨counted.pending_eq_nil quiet k, List.eq_nil_of_length_eq_zero (by omega)⟩
  · intro idle k
    have none := lines k
    rw [(idle k).2] at none ⊢
    exact List.eq_nil_of_length_eq_zero none

/-- A run goes on as long as a message waits for the server or a line for a client. -/
theorem Counted.step_serve (counted : room.Counted) {user : Fin n}
    (waiting : room.pending user ≠ []) (buf : Vector Byte 100) :
    room.step (.serve user buf) = some (room.serve user buf) := by
  have length := counted.fd user
  have positive := List.length_pos_iff.mpr waiting
  have ready : room.fd user ≠ [] := List.length_pos_iff.mp (by omega)
  rw [step, if_neg ready]

theorem Counted.step_threadRead (counted : room.Counted) {user : Fin n}
    (waiting : (room.displayed user).length < 2 * (room.sent user).length)
    (beyond : List Byte) :
    room.step (.threadRead user beyond) = some (room.threadRead user beyond) := by
  have length := counted.writefd user
  have ready : room.writefd user ≠ [] := List.length_pos_iff.mp (by omega)
  rw [step, if_neg ready]

theorem Counted.quiet (counted : room.Counted) (handled : ∀ k, room.pending k = [])
    (shown : ∀ k, (room.displayed k).length = 2 * (room.sent k).length) : room.Quiet := by
  intro k
  have unhandled := counted.fd k
  have unread := counted.writefd k
  rw [handled k, List.length_nil] at unhandled
  rw [shown k] at unread
  exact ⟨List.eq_nil_of_length_eq_zero (by omega), List.eq_nil_of_length_eq_zero (by omega)⟩

theorem sent_alone (alone : n ≤ 1)
    (reached : run step (start message typing reading) events = some final) :
    ∀ k, final.sent k = [] := by
  have same : ∀ k user : Fin n, k = user := by
    intro k user
    omega
  apply run_invariant (fun room : Room n => ∀ k, room.sent k = []) (fun _ => rfl) _ reached
  intro room event next silent taken k
  rcases step_cases taken with ⟨user, line, rfl, rfl⟩ | ⟨user, buf, rfl, ready, rfl⟩ |
    ⟨user, beyond, rfl, ready, rfl⟩
  · exact silent k
  · simp [serve, same k user, silent user]
  · exact silent k

end Steps

end Room

/-- After a run in which all that was written has been read, the clients have shown the messages of
the others exactly when there are no others or nothing was typed. -/
theorem run_agrees_iff {n : ℕ} (message : Vector Byte 200) (typing reading : Fin n → Vector Byte 100)
    (events : List (Event n)) (final : Room n)
    (reached : run Room.step (Room.start message typing reading) events = some final)
    (quiet : final.Quiet) :
    final.Agrees ↔ n ≤ 1 ∨ ∀ event ∈ events, ¬ event.IsTyped := by
  have counted := Room.counted_run reached
  rw [counted.agrees_iff_idle quiet]
  rcases Nat.lt_or_ge n 2 with alone | several
  · apply iff_of_true _ (Or.inl (by omega))
    intro k
    exact ⟨counted.pending_eq_nil quiet k, Room.sent_alone (by omega) reached k⟩
  · have runs : final.Idle ↔ (Room.start message typing reading).Idle ∧
        EveryStep Room.step (fun _ event _ => ¬ event.IsTyped)
          (Room.start message typing reading) events :=
      good_final_iff Room.Counted Room.Idle Room.counted_start
        (fun room event next counted taken =>
          ⟨Room.counted_step counted taken, Room.idle_step several counted taken⟩) reached
    have idle : (Room.start message typing reading).Idle := fun _ => ⟨rfl, rfl⟩
    rw [runs, everyStep_label_iff reached]
    simp [idle, show ¬ n ≤ 1 by omega]

section Example

def hi : Line where
  text := [0x68#8, 0x69#8, 0xA#8]
  short := by decide
  plain := by decide

def opened (n : ℕ) : Room n :=
  Room.start (Vector.replicate 200 0#8) (fun _ => Vector.replicate 100 0#8)
    (fun _ => Vector.replicate 100 0#8)

def greeting (n : ℕ) : List (Event (n + 1)) :=
  [.threadWrite 0 hi, .serve 0 (Vector.replicate 100 0#8)]

def greeted (n : ℕ) : Room (n + 1) :=
  ((opened (n + 1)).threadWrite 0 hi).serve 0 (Vector.replicate 100 0#8)

theorem run_greeting (n : ℕ) : run Room.step (opened (n + 1)) (greeting n) = some (greeted n) := by
  have typed : ((opened (n + 1)).threadWrite 0 hi).Counted := Room.counted_start.threadWrite 0 hi
  have waiting : ((opened (n + 1)).threadWrite 0 hi).pending 0 ≠ [] := by
    simp [Room.threadWrite]
  rw [greeting, run_cons, Room.step, Option.bind_some, run_cons, typed.step_serve waiting]
  rfl

theorem counted_greeted (n : ℕ) : (greeted n).Counted :=
  Room.counted_run (run_greeting n)

end Example

theorem agrees_alone : (greeted 0).Agrees :=
  (run_agrees_iff (Vector.replicate 200 0#8) (fun _ => Vector.replicate 100 0#8)
    (fun _ => Vector.replicate 100 0#8) (greeting 0) (greeted 0) (run_greeting 0)
    ((counted_greeted 0).quiet (by decide) (by decide))).mpr (Or.inl le_rfl)

/-- When there is another client, it shows two lines for the one message. -/
theorem not_agrees_between_two :
    ∃ final, run Room.step (opened 2) (greeting 1 ++ [.threadRead 1 [], .threadRead 1 []]) =
        some final ∧ final.Quiet ∧ ¬ final.Agrees := by
  have counted := counted_greeted 1
  have first : (greeted 1).step (.threadRead 1 []) = some ((greeted 1).threadRead 1 []) :=
    counted.step_threadRead (by decide) []
  have onceRead := Room.counted_step counted first
  have second : ((greeted 1).threadRead 1 []).step (.threadRead 1 []) =
      some (((greeted 1).threadRead 1 []).threadRead 1 []) :=
    onceRead.step_threadRead (by decide) []
  have twiceRead := Room.counted_step onceRead second
  have quiet := twiceRead.quiet (by decide) (by decide)
  refine ⟨_, ?_, quiet, ?_⟩
  · rw [run_append, run_greeting, Option.bind_some, run_cons, first, Option.bind_some, run_cons,
      second]
    rfl
  · rw [twiceRead.agrees_iff_idle quiet]
    intro idle
    have none := (idle 1).2
    revert none
    decide

end NetLab.Chat
