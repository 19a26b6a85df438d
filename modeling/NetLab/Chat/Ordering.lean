import NetLab.Chat.Framing
import NetLab.Posix.Records
import NetLab.Systems.Relays

/-!
# The order of the messages in the select chat server

Though a client shows each message in two lines, all clients agree on the order of the messages: it
is that in which the server has handled them.
-/

namespace NetLab.Chat

open NetLab.Posix NetLab.Systems

variable {n : ℕ}

/-- What a user has typed. -/
def typedBy (user : Fin n) (events : List (Event n)) : List (List Byte) :=
  events.filterMap fun event =>
    match event with
    | .threadWrite typist line => if typist = user then some line.text else none
    | _ => none

/-- The texts that a client is to show of the messages in this order. -/
def textsFor (client : Fin n) (order : List (Fin n × List Byte)) : List (List Byte) :=
  (order.filter fun item => item.1 ≠ client).map fun item => userText item.1 item.2

/-- What the two lines of a text are. A text of less than 100 bytes is the first one. Of a longer
text 100 bytes stand at the beginning of the first line, and the second one is the rest. -/
def LineOf (text : List Byte) (half : ℕ) (line : List Byte) : Prop :=
  if half = 0 then (text.length < 100 → line = text) ∧ text.take 100 <+: line
  else 100 ≤ text.length → line = (text.take 199).drop 100

/-- Every two lines of a client are those of the next text. -/
def ShowsInOrder (displayed texts : List (List Byte)) : Prop :=
  ∀ (index : ℕ) (line : List Byte), displayed[index]? = some line →
    ∃ text, texts[index / 2]? = some text ∧ LineOf text (index % 2) line

/-! ## Blocks of text -/

section Blocks

variable {size : ℕ} {text line : List Byte} {block : Vector Byte size}

/-- A block begins with a text and its terminator. -/
structure Begins (text : List Byte) (block : Vector Byte size) : Prop where
  stored : text ++ [0#8] <+: block.toList
  plain : 0#8 ∉ text

theorem begins_storePrefix (plain : 0#8 ∉ text) (fits : text.length < size)
    (old : Vector Byte size) : Begins text (storePrefix (text ++ [0#8]) old) := by
  constructor
  case plain => exact plain
  case stored =>
    rw [toList_storePrefix (by simpa using fits)]
    exact List.prefix_append _ _

theorem cString_terminated {text : List Byte} (plain : 0#8 ∉ text) (behind : List Byte) :
    cString (text ++ [0#8] ++ behind) = text := by
  rw [List.append_assoc, cString_append plain, List.singleton_append, cString_zero_cons,
    List.append_nil]

theorem Begins.text_eq (begins : Begins text block) : cString block.toList = text := by
  rcases begins with ⟨⟨rest, whole⟩, plain⟩
  rw [← whole, cString_terminated plain]

/-- The bytes that a client reads first of a block, and those that it reads then. -/
def halfOf (block : Vector Byte 200) (half : ℕ) : Vector Byte 100 :=
  Vector.ofFn fun index => if half = 0 then block[(index : ℕ)] else block[100 + (index : ℕ)]

def halves (block : Vector Byte 200) : List (Vector Byte 100) :=
  [halfOf block 0, halfOf block 1]

theorem toList_lower (block : Vector Byte 200) :
    (halfOf block 0).toList = block.toList.take 100 := by
  apply List.ext_getElem
  · simp
  · intro index inside _
    simp [halfOf]

theorem toList_upper (block : Vector Byte 200) :
    (halfOf block 1).toList = block.toList.drop 100 := by
  apply List.ext_getElem
  · simp
  · intro index inside _
    simp [halfOf]

theorem recordBytes_halves (block : Vector Byte 200) :
    recordBytes (halves block) = block.toList := by
  rw [halves, recordBytes_cons, recordBytes_cons, recordBytes_nil, toList_lower, toList_upper,
    List.append_nil, List.take_append_drop]

theorem getElem?_halves (blocks : List (Vector Byte 200)) (index : ℕ) :
    (blocks.flatMap halves)[index]? = blocks[index / 2]?.map fun block =>
      halfOf block (index % 2) := by
  induction blocks generalizing index with
  | nil => simp
  | cons block blocks ih =>
      rw [List.flatMap_cons]
      match index with
      | 0 | 1 => rfl
      | index + 2 =>
          rw [show (index + 2) / 2 = index / 2 + 1 by omega, Nat.add_mod_right,
            List.getElem?_cons_succ, ← ih]
          rfl

/-- What is printed of the first half of a block, whatever stands behind the buffer. -/
theorem Begins.lower {block : Vector Byte 200} (begins : Begins (text.take 199) block)
    (beyond : List Byte) :
    LineOf text 0 (cString ((halfOf block 0).toList ++ beyond)) := by
  rcases begins with ⟨⟨rest, whole⟩, plain⟩
  rw [LineOf, if_pos rfl, toList_lower, ← whole]
  rcases Nat.lt_or_ge text.length 100 with short | long
  · have same : text.take 199 = text := List.take_of_length_le (by omega)
    rw [same] at plain ⊢
    have shown : cString ((text ++ [0#8] ++ rest).take 100 ++ beyond) = text := by
      rw [List.take_append, List.take_of_length_le (by simp; omega), List.append_assoc,
        cString_terminated plain]
    rw [shown]
    exact ⟨fun _ => rfl, List.take_prefix 100 text⟩
  · have front : (text.take 199 ++ [0#8] ++ rest).take 100 = text.take 100 := by
      rw [List.append_assoc, List.take_append_of_le_length (by simp; omega), List.take_take]
      rfl
    have unterminated : 0#8 ∉ text.take 100 := by
      intro inside
      apply plain
      rw [← List.take_append_drop 100 (text.take 199), List.take_take]
      exact List.mem_append_left _ inside
    rw [front, cString_append unterminated]
    exact ⟨fun short => absurd short (by omega), List.prefix_append _ _⟩

/-- What is printed of the second half. -/
theorem Begins.upper {block : Vector Byte 200} (begins : Begins (text.take 199) block)
    (beyond : List Byte) :
    LineOf text 1 (cString ((halfOf block 1).toList ++ beyond)) := by
  rcases begins with ⟨⟨rest, whole⟩, plain⟩
  rw [LineOf, if_neg (by decide), toList_upper, ← whole]
  intro long
  have behind : (text.take 199 ++ [0#8] ++ rest).drop 100 =
      (text.take 199).drop 100 ++ [0#8] ++ rest := by
    rw [List.append_assoc, List.drop_append_of_le_length (by simp; omega), ← List.append_assoc]
  rw [behind, List.append_assoc, cString_terminated]
  exact fun inside => plain (List.mem_of_mem_drop inside)

end Blocks

/-! ## The fifos -/

/-- A fifo in which there are the messages of a user that the server has not read yet. -/
def Queued (texts : List (List Byte)) (fifo : List Byte) : Prop :=
  ∃ blocks : List (Vector Byte 100), fifo = recordBytes blocks ∧ List.Forall₂ Begins texts blocks

/-- A line is what is printed of a block, whatever stands behind it. -/
def PrintedAs (block : Vector Byte 100) (line : List Byte) : Prop :=
  ∃ beyond, line = cString (block.toList ++ beyond)

/-- The blocks for these texts have been put into a fifo, and lines of them have been printed. -/
def Reading (texts displayed : List (List Byte)) (fifo : List Byte) : Prop :=
  ∃ (blocks : List (Vector Byte 200)) (read unread : List (Vector Byte 100)),
    List.Forall₂ Begins (texts.map (List.take 199)) blocks ∧
    read ++ unread = blocks.flatMap halves ∧ fifo = recordBytes unread ∧
    List.Forall₂ PrintedAs read displayed

section Fifos

variable {texts displayed : List (List Byte)} {fifo text : List Byte}

theorem Queued.types (queued : Queued texts fifo) (plain : 0#8 ∉ text) (short : text.length < 100)
    (old : Vector Byte 100) :
    Queued (texts ++ [text]) (fifo ++ (storePrefix (text ++ [0#8]) old).toList) := by
  rcases queued with ⟨blocks, fifo_eq, begin⟩
  refine ⟨blocks ++ [storePrefix (text ++ [0#8]) old], ?_, ?_⟩
  · rw [fifo_eq, recordBytes_append_singleton]
  · exact List.rel_append begin (.cons (begins_storePrefix plain short old) .nil)

/-- The server reads the first message in a fifo. -/
theorem Queued.serves (queued : Queued texts fifo) (ready : fifo ≠ []) (buf : Vector Byte 100) :
    ∃ rest, texts = cString (readInto fifo buf).1.toList :: rest ∧
      0#8 ∉ cString (readInto fifo buf).1.toList ∧ Queued rest (readInto fifo buf).2 := by
  rcases queued with ⟨blocks, rfl, begin⟩
  cases begin with
  | nil => exact absurd rfl ready
  | @cons text block rest blocks first others =>
      have read : readInto (recordBytes (block :: blocks)) buf = (block, recordBytes blocks) := by
        rw [readInto, take_recordBytes, drop_recordBytes, storePrefix_record]
      rw [read, first.text_eq]
      exact ⟨rest, rfl, first.plain, blocks, rfl, others⟩

/-- The server writes a text to a client. -/
theorem Reading.tells (reading : Reading texts displayed fifo) (plain : 0#8 ∉ text)
    (old : Vector Byte 200) :
    Reading (texts ++ [text]) displayed
      (fifo ++ (storePrefix (text.take 199 ++ [0#8]) old).toList) := by
  rcases reading with ⟨blocks, read, unread, begin, all, rfl, printed⟩
  have plainFront : 0#8 ∉ text.take 199 := fun inside => plain (List.mem_of_mem_take inside)
  have fits : (text.take 199).length < 200 := by
    rw [List.length_take]
    omega
  refine ⟨blocks ++ [storePrefix (text.take 199 ++ [0#8]) old], read,
    unread ++ halves (storePrefix (text.take 199 ++ [0#8]) old), ?_, ?_, ?_, printed⟩
  · rw [List.map_append]
    exact List.rel_append begin (.cons (begins_storePrefix plainFront fits old) .nil)
  · rw [← List.append_assoc, all, List.flatMap_append, List.flatMap_singleton]
  · rw [← recordBytes_halves, recordBytes, recordBytes, recordBytes, List.flatMap_append]

/-- The client reads half of a block and prints it. -/
theorem Reading.reads (reading : Reading texts displayed fifo) (ready : fifo ≠ [])
    (buf : Vector Byte 100) (beyond : List Byte) :
    Reading texts (displayed ++ [cString ((readInto fifo buf).1.toList ++ beyond)])
      (readInto fifo buf).2 := by
  rcases reading with ⟨blocks, read, unread, begin, all, rfl, printed⟩
  cases unread with
  | nil => exact absurd rfl ready
  | cons block unread =>
      have first : readInto (recordBytes (block :: unread)) buf = (block, recordBytes unread) := by
        rw [readInto, take_recordBytes, drop_recordBytes, storePrefix_record]
      rw [first]
      refine ⟨blocks, read ++ [block], unread, begin, ?_, rfl, ?_⟩
      · rw [← all, List.append_assoc, List.singleton_append]
      · exact List.rel_append printed (.cons ⟨beyond, rfl⟩ .nil)

theorem getElem?_of_forall₂ {Left Right : Type} {related : Left → Right → Prop} {lefts : List Left}
    {rights : List Right} (all : List.Forall₂ related lefts rights) {index : ℕ} {right : Right}
    (found : rights[index]? = some right) :
    ∃ left, lefts[index]? = some left ∧ related left right := by
  induction all generalizing index with
  | nil => cases found
  | @cons left _ _ _ first _ ih =>
      cases index with
      | zero =>
          cases found
          exact ⟨left, rfl, first⟩
      | succ index => exact ih found

theorem Reading.showsInOrder (reading : Reading texts displayed fifo) :
    ShowsInOrder displayed texts := by
  rcases reading with ⟨blocks, read, unread, begin, all, rfl, printed⟩
  intro index line shown
  rcases getElem?_of_forall₂ printed shown with ⟨half, half_eq, beyond, rfl⟩
  have inside : index < read.length := (List.getElem?_eq_some_iff.mp half_eq).1
  have whole : (blocks.flatMap halves)[index]? = some half := by
    rw [← all, List.getElem?_append_left inside, half_eq]
  rw [getElem?_halves, Option.map_eq_some_iff] at whole
  rcases whole with ⟨block, block_eq, rfl⟩
  rcases getElem?_of_forall₂ begin block_eq with ⟨stored, stored_eq, begins⟩
  rw [List.getElem?_map, Option.map_eq_some_iff] at stored_eq
  rcases stored_eq with ⟨text, text_eq, rfl⟩
  refine ⟨text, text_eq, ?_⟩
  rcases Nat.mod_two_eq_zero_or_one index with even | odd
  · rw [even]
    exact begins.lower beyond
  · rw [odd]
    exact begins.upper beyond

/-- Two lines have been shown of each text when the fifo is empty. -/
theorem Reading.length_displayed (reading : Reading texts displayed fifo) (empty : fifo = []) :
    displayed.length = 2 * texts.length := by
  rcases reading with ⟨blocks, read, unread, begin, all, fifo_eq, printed⟩
  rw [empty, eq_comm, recordBytes_eq_nil_iff (by decide)] at fifo_eq
  rw [fifo_eq, List.append_nil] at all
  have count := begin.length_eq
  have lines := printed.length_eq
  have twice : (blocks.flatMap halves).length = 2 * blocks.length := by
    simp [List.length_flatMap, halves, Nat.mul_comm]
  rw [List.length_map] at count
  rw [all, twice] at lines
  omega

end Fifos

/-! ## Runs -/

namespace Room

/-- All fifos hold what is left of the messages in this order. -/
structure Ordered (room : Room n) (order : List (Fin n × List Byte)) : Prop where
  fd : ∀ user, Queued (room.pending user) (room.fd user)
  writefd : ∀ client,
    Reading (textsFor client order) (room.displayed client) (room.writefd client)

section Steps

variable {room next final : Room n} {order : List (Fin n × List Byte)} {user : Fin n}
  {event : Event n} {events : List (Event n)}

theorem plain_userText {text : List Byte} (plain : 0#8 ∉ text) : 0#8 ∉ userText user text := by
  have number : 0#8 ∉ decimal (user : ℕ) := zero_notMem_decimal _
  simp only [userText, List.mem_append, not_or]
  exact ⟨⟨⟨by decide, number⟩, by decide⟩, plain⟩

theorem textsFor_append (client : Fin n) (text : List Byte) :
    textsFor client (order ++ [(user, text)]) =
      textsFor client order ++ if client ≠ user then [userText user text] else [] := by
  rw [textsFor, List.filter_append, List.map_append, textsFor]
  rcases eq_or_ne client user with rfl | apart
  · simp
  · simp [apart, apart.symm]

theorem Ordered.threadWrite (ordered : room.Ordered order) (user : Fin n) (line : Line) :
    (room.threadWrite user line).Ordered order := by
  constructor
  case fd =>
    intro other
    rcases eq_or_ne other user with rfl | apart
    · simpa [Room.threadWrite] using
        (ordered.fd other).types line.plain (Nat.lt_succ_of_le line.short) (room.typing other)
    · simpa [Room.threadWrite, Function.update_of_ne apart] using ordered.fd other
  case writefd => exact ordered.writefd

/-- The server handles a message: it is the next one of its user. -/
theorem Ordered.serve (ordered : room.Ordered order) (ready : room.fd user ≠ [])
    (buf : Vector Byte 100) :
    ∃ text, (room.serve user buf).Ordered (order ++ [(user, text)]) ∧
      ∀ other, messagesOf other [(user, text)] ++ (room.serve user buf).pending other =
        room.pending other := by
  rcases (ordered.fd user).serves ready buf with ⟨rest, pending, plain, queued⟩
  generalize text_eq : cString (readInto (room.fd user) buf).1.toList = text at pending plain
  refine ⟨text, ⟨?_, ?_⟩, ?_⟩
  · intro other
    rcases eq_or_ne other user with rfl | apart
    · simpa [Room.serve, pending] using queued
    · simpa [Room.serve, Function.update_of_ne apart] using ordered.fd other
  · intro client
    rw [textsFor_append]
    rcases eq_or_ne client user with rfl | apart
    · simpa [Room.serve] using ordered.writefd client
    · simpa [Room.serve, apart, text_eq] using
        (ordered.writefd client).tells (plain_userText plain) room.message
  · intro other
    rcases eq_or_ne other user with rfl | apart
    · simp [Room.serve, pending, messagesOf_self]
    · simp [Room.serve, Function.update_of_ne apart, messagesOf_other apart.symm]

theorem Ordered.threadRead (ordered : room.Ordered order) (ready : room.writefd user ≠ [])
    (beyond : List Byte) : (room.threadRead user beyond).Ordered order := by
  constructor
  case fd => exact ordered.fd
  case writefd =>
    intro client
    rcases eq_or_ne client user with rfl | apart
    · simpa [Room.threadRead] using
        (ordered.writefd client).reads ready (room.reading client) beyond
    · simpa [Room.threadRead, Function.update_of_ne apart] using ordered.writefd client

/-- The messages that a step puts behind the order, and what it leaves pending, are what was pending
and what is typed. -/
theorem Ordered.step (ordered : room.Ordered order) (taken : room.step event = some next) :
    ∃ served, next.Ordered (order ++ served) ∧
      ∀ user, messagesOf user served ++ next.pending user =
        room.pending user ++ typedBy user [event] := by
  rcases step_cases taken with ⟨user, line, rfl, rfl⟩ | ⟨user, buf, rfl, ready, rfl⟩ |
    ⟨user, beyond, rfl, ready, rfl⟩
  · refine ⟨[], ?_, ?_⟩
    · rw [List.append_nil]
      exact ordered.threadWrite user line
    · intro other
      rcases eq_or_ne other user with rfl | apart
      · simp [messagesOf, Room.threadWrite, typedBy]
      · simp [messagesOf, Room.threadWrite, typedBy, Function.update_of_ne apart, apart.symm]
  · rcases ordered.serve ready buf with ⟨text, served, pending⟩
    refine ⟨[(user, text)], served, fun other => ?_⟩
    rw [pending other]
    exact (List.append_nil _).symm
  · refine ⟨[], ?_, fun other => (List.append_nil _).symm⟩
    rw [List.append_nil]
    exact ordered.threadRead ready beyond

theorem Ordered.run (ordered : room.Ordered order)
    (reached : run Room.step room events = some final) :
    ∃ served, final.Ordered (order ++ served) ∧
      ∀ user, messagesOf user served ++ final.pending user =
        room.pending user ++ typedBy user events := by
  induction events generalizing room order with
  | nil =>
      cases reached
      refine ⟨[], ?_, fun user => (List.append_nil _).symm⟩
      rw [List.append_nil]
      exact ordered
  | cons event events ih =>
      rcases run_cons_eq_some.mp reached with ⟨next, taken, reached⟩
      rcases ordered.step taken with ⟨first, continued, typed⟩
      rcases ih continued reached with ⟨others, finished, rest⟩
      refine ⟨first ++ others, ?_, fun user => ?_⟩
      · rw [← List.append_assoc]
        exact finished
      · rw [messagesOf_append, List.append_assoc, rest, ← List.append_assoc, typed,
          List.append_assoc]
        congr 1
        exact (List.filterMap_append (l := [event])).symm

theorem ordered_start (message : Vector Byte 200) (typing reading : Fin n → Vector Byte 100) :
    (start message typing reading).Ordered [] :=
  ⟨fun _ => ⟨[], rfl, .nil⟩, fun _ => ⟨[], [], [], .nil, rfl, rfl, .nil⟩⟩

end Steps

end Room

/-- The messages that the server has handled have one order, and it keeps that of each user. All
clients show those of the others in this order, and every message that a user has typed is in it as
soon as the fifo of that user is empty. -/
theorem shown_in_order (message : Vector Byte 200) (typing reading : Fin n → Vector Byte 100)
    (events : List (Event n)) (final : Room n)
    (reached : run Room.step (Room.start message typing reading) events = some final) :
    ∃ (order : List (Fin n × List Byte)) (waiting : Fin n → List (List Byte)),
      (∀ user, typedBy user events = messagesOf user order ++ waiting user ∧
        (final.fd user = [] → waiting user = [])) ∧
      ∀ client, ShowsInOrder (final.displayed client) (textsFor client order) ∧
        (final.writefd client = [] →
          (final.displayed client).length = 2 * (textsFor client order).length) := by
  rcases (Room.ordered_start message typing reading).run reached with ⟨order, ordered, typed⟩
  rw [List.nil_append] at ordered
  refine ⟨order, final.pending, fun user => ⟨?_, ?_⟩, fun client => ⟨?_, ?_⟩⟩
  · exact (typed user).symm
  · intro empty
    rcases ordered.fd user with ⟨blocks, fifo, begin⟩
    rw [empty, eq_comm, recordBytes_eq_nil_iff (by decide)] at fifo
    subst fifo
    generalize final.pending user = pending at begin
    cases begin
    rfl
  · exact (ordered.writefd client).showsInOrder
  · exact (ordered.writefd client).length_displayed

/-- One message is handled and read by the other client. -/
def conversation : List (Event 2) :=
  greeting 1 ++ [.threadRead 1 [], .threadRead 1 []]

theorem conversation_runs : (run Room.step (opened 2) conversation).isSome = true := by
  decide +kernel

theorem shown_in_order_conversation :
    ∃ final, run Room.step (opened 2) conversation = some final ∧
      ∃ (order : List (Fin 2 × List Byte)) (waiting : Fin 2 → List (List Byte)),
        (∀ user, typedBy user conversation = messagesOf user order ++ waiting user ∧
          (final.fd user = [] → waiting user = [])) ∧
        ∀ client, ShowsInOrder (final.displayed client) (textsFor client order) ∧
          (final.writefd client = [] →
            (final.displayed client).length = 2 * (textsFor client order).length) :=
  ⟨_, (Option.some_get conversation_runs).symm,
    shown_in_order _ _ _ _ _ (Option.some_get conversation_runs).symm⟩

end NetLab.Chat
