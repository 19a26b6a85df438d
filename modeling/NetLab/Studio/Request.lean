import NetLab.Posix.Text

/-!
# The request of the studio script

The script asks for the numbers of actors and of sets, then for the actors and the
sets. Both prompts are followed by the loop for the other list, and the numbers are
sent in the other order than the director receives them. The slips cancel out when
the two numbers are the same.
-/

namespace NetLab.Studio

open NetLab.Posix

abbrev Record :=
  Vector Byte 30

/-- `sprintf(buffer, "%d", number)` -/
def printNumber (buffer : Record) (number : ℤ) : Record :=
  storePrefix (decimal number ++ [0#8]) buffer

def readNumber (record : Record) : ℤ :=
  atoi (cString record.toList)

/-- Numbers are printed one after the other in one buffer, which is sent each time. -/
def sendNumbers (buffer : Record) : List ℤ → List Record
  | [] => []
  | number :: numbers =>
      printNumber buffer number :: sendNumbers (printNumber buffer number) numbers

/-- What `script.c` sends for the numbers that are typed. -/
def script (countbuffer : Record) : List ℤ → List Record
  | actors :: sets :: typed =>
      let setsList := typed.take sets.toNat
      let actorList := (typed.drop sets.toNat).take actors.toNat
      sendNumbers countbuffer (sets :: actors :: (setsList ++ actorList))
  | _ => []

/-- `max_count` of the director; the arrays of the producer have the same size. -/
def maxCount : ℕ :=
  5

/-- An array of `max_count` numbers that is filled from its beginning. -/
@[ext]
structure Entries where
  values : List ℤ
  fits : values.length ≤ maxCount
deriving DecidableEq, Repr

namespace Entries

def empty : Entries where
  values := []
  fits := Nat.zero_le _

/-- The assignment to the next entry. One past the end of the array is an error. -/
def push (entries : Entries) (value : ℤ) : Option Entries :=
  if room : entries.values.length < maxCount then
    some
      { values := entries.values ++ [value]
        fits := by
          rw [List.length_append]
          exact room }
  else none

theorem push_eq_some_iff {entries filled : Entries} {value : ℤ} :
    entries.push value = some filled ↔ filled.values = entries.values ++ [value] := by
  have fits := filled.fits
  rw [push]
  split
  case isTrue => simp [Entries.ext_iff, eq_comm]
  case isFalse full =>
    apply iff_of_false (by simp)
    intro stored
    rw [stored, List.length_append, List.length_singleton] at fits
    omega

theorem exists_pushed {entries filled : Entries} {value : ℤ} {later : List ℤ}
    (stored : filled.values = entries.values ++ value :: later) :
    ∃ next : Entries, next.values = entries.values ++ [value] ∧
      filled.values = next.values ++ later := by
  have fits := filled.fits
  rw [stored, List.length_append, List.length_cons] at fits
  refine ⟨⟨entries.values ++ [value], ?_⟩, rfl, ?_⟩
  · rw [List.length_append, List.length_singleton]
    omega
  · rw [stored, List.append_assoc, List.singleton_append]

end Entries

/-- The loop that receives `rounds` items into an array, and what is left to receive. -/
def fill {Item : Type} (read : Item → ℤ) :
    ℕ → Entries → List Item → Option (Entries × List Item)
  | 0, entries, items => some (entries, items)
  | _ + 1, _, [] => none
  | rounds + 1, entries, item :: items =>
      (entries.push (read item)).bind fun entries => fill read rounds entries items

/-- A request as the director has it. -/
structure Received where
  actorsCount : ℤ
  setCount : ℤ
  actors : Entries
  sets : Entries
deriving DecidableEq, Repr

def receive : List Record → Option Received
  | first :: second :: records =>
      (fill readNumber (readNumber first).toNat .empty records).bind fun (actors, records) =>
        (fill readNumber (readNumber second).toNat .empty records).map fun (sets, _) =>
          { actorsCount := readNumber first, setCount := readNumber second, actors, sets }
  | _ => none

/-- The lists that a user types. Their lengths are read as an `int`. -/
structure Request where
  actorIds : List (BitVec 32)
  setIds : List (BitVec 32)
  actors_lt : actorIds.length < 2 ^ 31
  sets_lt : setIds.length < 2 ^ 31

namespace Request

variable (request : Request)

def actors : List ℤ :=
  request.actorIds.map BitVec.toInt

def sets : List ℤ :=
  request.setIds.map BitVec.toInt

/-- What is typed, in the order of the prompts. -/
def typed : List ℤ :=
  request.actors.length :: request.sets.length :: (request.actors ++ request.sets)

def IsReceived (received : Received) : Prop :=
  received.actorsCount = request.actors.length ∧ received.setCount = request.sets.length ∧
    received.actors.values = request.actors ∧ received.sets.values = request.sets

end Request

section Numbers

variable {number : ℤ} {numbers : List ℤ}

def IsInt (number : ℤ) : Prop :=
  -2 ^ 31 ≤ number ∧ number < 2 ^ 31

theorem length_decimal_le (int : IsInt number) : (decimal number).length ≤ 11 := by
  have small : number.natAbs < 10 ^ 10 := by
    have ⟨above, below⟩ := int
    omega
  have digits := length_digitBytes_le (by decide) small
  rw [decimal]
  split
  case isTrue => exact Nat.succ_le_succ digits
  case isFalse => exact digits.trans (by decide)

theorem readNumber_printNumber (int : IsInt number) (buffer : Record) :
    readNumber (printNumber buffer number) = number := by
  have short : (decimal number).length < 30 := (length_decimal_le int).trans_lt (by decide)
  rw [readNumber, printNumber, cString_storePrefix_text short (zero_notMem_decimal number),
    atoi_decimal]

theorem map_readNumber_sendNumbers (ints : ∀ number ∈ numbers, IsInt number) (buffer : Record) :
    (sendNumbers buffer numbers).map readNumber = numbers := by
  induction numbers generalizing buffer with
  | nil => rfl
  | cons number numbers ih =>
      have ⟨int, later⟩ := List.forall_mem_cons.mp ints
      rw [sendNumbers, List.map_cons, readNumber_printNumber int, ih later]

end Numbers

section Receive

variable {Item : Type} {read : Item → ℤ} {rounds : ℕ} {entries filled : Entries}
  {items rest : List Item}

/-- The array has the items behind what it had before; there must be room for them. -/
theorem fill_eq_some_iff : fill read rounds entries items = some (filled, rest) ↔
    rounds ≤ items.length ∧ filled.values = entries.values ++ (items.take rounds).map read ∧
      rest = items.drop rounds := by
  induction rounds generalizing entries items with
  | zero => simp [fill, Entries.ext_iff, eq_comm]
  | succ rounds ih =>
      cases items with
      | nil => simp [fill]
      | cons item items =>
          simp only [fill, Option.bind_eq_some_iff, ih, Entries.push_eq_some_iff,
            List.take_succ_cons, List.drop_succ_cons, List.map_cons, List.length_cons,
            Nat.add_le_add_iff_right]
          constructor
          · rintro ⟨next, pushed, enough, stored, left⟩
            rw [pushed, List.append_assoc] at stored
            exact ⟨enough, stored, left⟩
          · rintro ⟨enough, stored, left⟩
            have ⟨next, pushed, later⟩ := Entries.exists_pushed stored
            exact ⟨next, pushed, enough, later, left⟩

end Receive

section Transport

variable (request : Request) (countbuffer : Record)

theorem isInt_typed : ∀ number ∈ request.actors ++ request.sets, IsInt number := by
  intro number listed
  have ⟨id, same⟩ : ∃ id : BitVec 32, id.toInt = number := by
    rcases List.mem_append.mp listed with actor | set
    · exact (List.mem_map.mp actor).imp fun id found => found.2
    · exact (List.mem_map.mp set).imp fun id found => found.2
  rw [← same]
  exact ⟨id.le_toInt, id.toInt_lt⟩

theorem isInt_length_actors : IsInt request.actors.length := by
  have below := request.actors_lt
  rw [IsInt, Request.actors, List.length_map]
  omega

theorem isInt_length_sets : IsInt request.sets.length := by
  have below := request.sets_lt
  rw [IsInt, Request.sets, List.length_map]
  omega

theorem take_drop_typed : ((request.actors ++ request.sets).drop request.sets.length).take
    request.actors.length = (request.actors ++ request.sets).drop request.sets.length := by
  apply List.take_of_length_le
  simp

/-- The number of sets is sent first. The two lists are sent as they were typed. -/
theorem script_typed : script countbuffer request.typed =
    sendNumbers countbuffer (request.sets.length :: request.actors.length ::
      (request.actors ++ request.sets)) := by
  simp only [script, Request.typed, Int.toNat_natCast, take_drop_typed, List.take_append_drop]

/-- The director takes the number of sets for that of the actors. -/
theorem receive_script_iff (received : Received) :
    receive (script countbuffer request.typed) = some received ↔
      received.actorsCount = request.sets.length ∧ received.setCount = request.actors.length ∧
        received.actors.values = (request.actors ++ request.sets).take request.sets.length ∧
        received.sets.values = (request.actors ++ request.sets).drop request.sets.length := by
  have ids := map_readNumber_sendNumbers (isInt_typed request)
  rw [script_typed, sendNumbers, sendNumbers, receive,
    readNumber_printNumber (isInt_length_sets request),
    readNumber_printNumber (isInt_length_actors request)]
  generalize printNumber (printNumber countbuffer _) _ = buffer
  have length := congrArg List.length (ids buffer)
  rw [List.length_map, List.length_append] at length
  simp only [Option.bind_eq_some_iff, Option.map_eq_some_iff, Prod.exists, fill_eq_some_iff,
    Int.toNat_natCast, List.map_take, ids, length, Entries.empty, List.nil_append]
  have behind : (((sendNumbers buffer (request.actors ++ request.sets)).drop
      request.sets.length).map readNumber).take request.actors.length =
      (request.actors ++ request.sets).drop request.sets.length := by
    rw [List.map_drop, ids, take_drop_typed]
  constructor
  · rintro ⟨actors, rest, ⟨-, first, rfl⟩, sets, left, ⟨-, second, -⟩, rfl⟩
    exact ⟨rfl, rfl, first, second.trans behind⟩
  · rintro ⟨actorsCount, setCount, first, second⟩
    refine ⟨received.actors, _, ⟨by omega, first, rfl⟩, received.sets, _,
      ⟨?_, second.trans behind.symm, rfl⟩, ?_⟩
    · rw [List.length_drop, length]
      omega
    · rw [← actorsCount, ← setCount]

end Transport

/-- The director has what was typed exactly when as many actors as sets are typed and there is room
for them. -/
theorem receive_script_isReceived_iff (request : Request) (countbuffer : Record) :
    (∃ received, receive (script countbuffer request.typed) = some received ∧
        request.IsReceived received) ↔
      request.actorIds.length = request.setIds.length ∧ request.actorIds.length ≤ maxCount := by
  have actors_length : request.actors.length = request.actorIds.length := List.length_map _
  have sets_length : request.sets.length = request.setIds.length := List.length_map _
  simp only [receive_script_iff]
  constructor
  · rintro ⟨received, ⟨count, -, -, -⟩, ⟨same, -, actors, -⟩⟩
    have fits := received.actors.fits
    rw [actors, actors_length] at fits
    exact ⟨by omega, fits⟩
  · rintro ⟨same, fits⟩
    have equal : request.sets.length = request.actors.length := by omega
    let received : Received :=
      { actorsCount := request.actors.length
        setCount := request.sets.length
        actors := ⟨request.actors, by omega⟩
        sets := ⟨request.sets, by omega⟩ }
    refine ⟨received, ⟨?_, ?_, ?_, ?_⟩, rfl, rfl, rfl, rfl⟩
    · exact congrArg Int.ofNat equal.symm
    · exact congrArg Int.ofNat equal
    · rw [equal]
      exact List.take_left.symm
    · rw [equal]
      exact List.drop_left.symm

def twoSets : Request where
  actorIds := [1#32]
  setIds := [2#32, 3#32]
  actors_lt := by decide
  sets_lt := by decide

theorem twoSets_not_received : ¬ ∃ received,
    receive (script (Vector.replicate 30 0#8) twoSets.typed) = some received ∧
      twoSets.IsReceived received := by
  rintro ⟨received, sent, count, -⟩
  have swapped := ((receive_script_iff twoSets _ received).mp sent).1
  rw [swapped] at count
  cases count

end NetLab.Studio
