import NetLab.Posix.Text
import NetLab.Systems.Runs

/-!
# The registry of the `mss` server

Services register the port at which they wait; clients ask for a service by its number
in the order of the registrations. Neither number is checked against the length of the
array `services`, and the text of a port may be too long for the reply.

Every access to the array is recorded. One that is out of range goes to memory of
something else; the array of the model goes on there instead.
-/

namespace NetLab.Mss

open NetLab.Posix NetLab.Systems

def maxServices : ℤ :=
  5

structure Service where
  port : ℤ
  sfd : ℤ
  available : ℤ
deriving DecidableEq, Repr

/-- The globals of the server. The last field only records the ports that were registered. -/
structure Registry where
  services : ℤ → Service
  noOfServices : ℕ
  accesses : List ℤ
  registered : List ℤ

/-- The text that `recv` stores in a buffer of ten bytes, with what stands behind it. -/
def received (text : List Byte) (buffer : Vector Byte 10) (beyond : List Byte) : List Byte :=
  cString ((storePrefix text buffer).toList ++ beyond)

/-- What the server accepts: a registration over the connection `nfd`, with what `portbuffer` held
before, or a request. -/
inductive Event where
  | register (nfd : ℤ) (text : List Byte) (portbuffer : Vector Byte 10) (beyond : List Byte)
  | request (text : List Byte) (beyond : List Byte)

def portOf (text : List Byte) (portbuffer : Vector Byte 10) (beyond : List Byte) : ℤ :=
  atoiInt (received text portbuffer beyond)

/-- The number of the service that is asked for. `servbuffer` is zeroed before. -/
def numberOf (text : List Byte) (beyond : List Byte) : ℤ :=
  atoiInt (received text (Vector.replicate 10 0#8) beyond)

namespace Registry

/-- The static array is zero. `outside` is the memory around it. -/
def start (outside : ℤ → Service) : Registry where
  services := fun index =>
    if 0 ≤ index ∧ index < maxServices then { port := 0, sfd := 0, available := 0 }
    else outside index
  noOfServices := 0
  accesses := []
  registered := []

def register (registry : Registry) (nfd port : ℤ) : Registry where
  services := Function.update registry.services registry.noOfServices
    { port, sfd := nfd, available := 1 }
  noOfServices := registry.noOfServices + 1
  accesses := registry.accesses ++
    [(registry.noOfServices : ℤ), registry.noOfServices, registry.noOfServices]
  registered := registry.registered ++ [port]

def servportbuffer (port : ℤ) : Vector Byte 10 :=
  storePrefix (decimal port ++ [0#8]) (Vector.replicate 10 0#8)

/-- What is sent to a client before its connection is closed, if anything. -/
def reply (registry : Registry) (servIndex : ℤ) : Option (Vector Byte 10) :=
  let service := registry.services (servIndex - 1)
  if service.available = 0 then none else some (servportbuffer service.port)

def request (registry : Registry) (servIndex : ℤ) : Registry :=
  { registry with
    accesses := registry.accesses ++
      if (registry.services (servIndex - 1)).available = 0 then [servIndex - 1]
      else [servIndex - 1, servIndex - 1, servIndex - 1] }

def step (registry : Registry) : Event → Option Registry
  | .register nfd text portbuffer beyond =>
      some (registry.register nfd (portOf text portbuffer beyond))
  | .request text beyond => some (registry.request (numberOf text beyond))

end Registry

/-- The port registered by the `q`-th registrant. -/
def registeredPort (registered : List ℤ) (q : ℤ) : Option ℤ :=
  if 1 ≤ q then registered[(q - 1).toNat]? else none

/-- A client reads the port from a record when the record ends its text. -/
def Conveys (record : Vector Byte 10) (port : ℤ) : Prop :=
  0#8 ∈ record.toList ∧ atoi (cString record.toList) = port

/-- The client is told the port of the service it asks for, or nothing if there is none. -/
def Answers (registered : List ℤ) (q : ℤ) (reply : Option (Vector Byte 10)) : Prop :=
  match registeredPort registered q with
  | some port => ∃ record, reply = some record ∧ Conveys record port
  | none => reply = none

def InRange (accesses : List ℤ) : Prop :=
  ∀ index ∈ accesses, 0 ≤ index ∧ index < maxServices

/-- What is expected of a step: accesses within the array, and the right answer to a request. -/
def Sound (registry : Registry) (event : Event) (next : Registry) : Prop :=
  InRange next.accesses ∧
    match event with
    | .register _ _ _ _ => True
    | .request text beyond =>
        Answers registry.registered (numberOf text beyond) (registry.reply (numberOf text beyond))

/-- There is room for the registration; the number that is asked for is one of the array, and a port
registered under it has at most nine characters. -/
def Fits (registry : Registry) : Event → Prop
  | .register _ _ _ _ => (registry.registered.length : ℤ) < maxServices
  | .request text beyond =>
      1 ≤ numberOf text beyond ∧ numberOf text beyond ≤ maxServices ∧
        ∀ port ∈ registeredPort registry.registered (numberOf text beyond),
          (decimal port).length ≤ 9

section Text

/-- A text that ends within the buffer is read as it is, whatever the buffer held. -/
theorem received_of_terminated {text : List Byte} (plain : 0#8 ∉ text) (short : text.length < 10)
    (buffer : Vector Byte 10) (beyond : List Byte) :
    received (text ++ [0#8]) buffer beyond = text :=
  cString_storePrefix_terminated short plain buffer beyond

/-- A service that sends its port as a text is registered with it. -/
theorem portOf_decimal {port : ℤ} (above : -2 ^ 31 ≤ port) (below : port < 2 ^ 31)
    (short : (decimal port).length ≤ 9) (portbuffer : Vector Byte 10) (beyond : List Byte) :
    portOf (decimal port ++ [0#8]) portbuffer beyond = port := by
  have read := atoi_decimal port
  rw [portOf, received_of_terminated (zero_notMem_decimal port) (Nat.lt_succ_of_le short),
    atoiInt_eq (by omega) (by omega), read]

theorem conveys_servportbuffer_iff (port : ℤ) :
    Conveys (Registry.servportbuffer port) port ↔ (decimal port).length ≤ 9 := by
  have plain := zero_notMem_decimal port
  constructor
  · rintro ⟨terminated, -⟩
    by_contra long
    have full : (Registry.servportbuffer port).toList = (decimal port).take 10 := by
      apply List.ext_getElem
      · simp
        omega
      · intro index inside _
        have within : index < (decimal port).length := by
          simp at inside
          omega
        simp [Registry.servportbuffer, getElem_storePrefix, List.getElem?_append_left within,
          List.getElem?_eq_getElem within]
    rw [full] at terminated
    exact plain (List.mem_of_mem_take terminated)
  · intro short
    have inside : (decimal port).length < 10 := Nat.lt_succ_of_le short
    have fits : (decimal port ++ [0#8]).length ≤ 10 := by
      rw [List.length_append, List.length_singleton]
      exact inside
    constructor
    · rw [Registry.servportbuffer, toList_storePrefix fits]
      simp
    · rw [Registry.servportbuffer, cString_storePrefix_text inside plain, atoi_decimal]

end Text

section Steps

/-- The first entries of the array are the registrations; the others are not available. -/
structure Kept (registry : Registry) : Prop where
  count : registry.noOfServices = registry.registered.length
  room : (registry.registered.length : ℤ) ≤ maxServices
  known : ∀ (k : ℕ) (port : ℤ), registry.registered[k]? = some port →
    (registry.services k).available = 1 ∧ (registry.services k).port = port
  free : ∀ k : ℕ, registry.registered.length ≤ k → (k : ℤ) < maxServices →
    (registry.services k).available = 0
  accesses : InRange registry.accesses

variable {registry : Registry}

theorem kept_start (outside : ℤ → Service) : Kept (Registry.start outside) := by
  constructor
  case count => rfl
  case room =>
    change (0 : ℤ) ≤ 5
    decide
  case known =>
    intro k port found
    cases found
  case free =>
    intro k _ inside
    simp only [Registry.start]
    rw [if_pos ⟨Int.natCast_nonneg k, inside⟩]
  case accesses => exact List.forall_mem_nil _

theorem Kept.register (kept : Kept registry)
    (fits : (registry.registered.length : ℤ) < maxServices) (nfd port : ℤ) :
    Kept (registry.register nfd port) := by
  have count := kept.count
  constructor
  case count =>
    simp only [Registry.register, List.length_append, List.length_singleton]
    omega
  case room =>
    simp only [Registry.register, List.length_append, List.length_singleton]
    omega
  case known =>
    intro k other found
    simp only [Registry.register] at found ⊢
    rcases Nat.lt_trichotomy k registry.registered.length with earlier | rfl | later
    · rw [List.getElem?_append_left earlier] at found
      rw [Function.update_of_ne (by omega)]
      exact kept.known k other found
    · rw [List.getElem?_concat_length] at found
      rw [count, Function.update_self]
      exact ⟨rfl, Option.some.inj found⟩
    · rw [List.getElem?_eq_none (by simp; omega)] at found
      cases found
  case free =>
    intro k beyond inside
    simp only [Registry.register, List.length_append, List.length_singleton] at beyond ⊢
    rw [Function.update_of_ne (by omega)]
    exact kept.free k (by omega) inside
  case accesses =>
    intro index listed
    rcases List.mem_append.mp listed with earlier | now
    · exact kept.accesses index earlier
    · have same : index = registry.noOfServices := by simpa using now
      omega

theorem inRange_register_iff (kept : Kept registry) (nfd port : ℤ) :
    InRange (registry.register nfd port).accesses ↔
      (registry.registered.length : ℤ) < maxServices := by
  constructor
  · intro inside
    have here := inside registry.noOfServices (by simp [Registry.register])
    rw [kept.count] at here
    exact here.2
  · intro fits
    exact (kept.register fits nfd port).accesses

theorem inRange_request_iff (kept : Kept registry) (q : ℤ) :
    InRange (registry.request q).accesses ↔ 1 ≤ q ∧ q ≤ maxServices := by
  constructor
  · intro inside
    have here := inside (q - 1) (by
      simp only [Registry.request]
      split <;> simp)
    omega
  · intro bounds index listed
    rcases List.mem_append.mp listed with earlier | now
    · exact kept.accesses index earlier
    · have same : index = q - 1 := by
        split at now <;> simpa using now
      omega

theorem Kept.request (kept : Kept registry) {q : ℤ} (inside : 1 ≤ q ∧ q ≤ maxServices) :
    Kept (registry.request q) :=
  { kept with accesses := (inRange_request_iff kept q).mpr inside }

theorem answers_iff (kept : Kept registry) {q : ℤ} (inside : 1 ≤ q ∧ q ≤ maxServices) :
    Answers registry.registered q (registry.reply q) ↔
      ∀ port ∈ registeredPort registry.registered q, (decimal port).length ≤ 9 := by
  have index : ((q - 1).toNat : ℤ) = q - 1 := Int.toNat_of_nonneg (by omega)
  rw [Answers, registeredPort, if_pos inside.1, Registry.reply]
  cases found : registry.registered[(q - 1).toNat]? with
  | none =>
      have beyond := List.getElem?_eq_none_iff.mp found
      have free := kept.free _ beyond (by omega)
      rw [index] at free
      simp [free]
  | some port =>
      have known := kept.known _ port found
      rw [index] at known
      simp [known.1, known.2, conveys_servportbuffer_iff]

end Steps

/-- Every step of the server is as expected exactly when every registration finds room, every number
asked for is one of the array, and the ports asked for are short enough. -/
theorem sound_iff_fits (outside : ℤ → Service) (events : List Event) :
    EveryStep Registry.step Sound (Registry.start outside) events ↔
      EveryStep Registry.step (fun registry event _ => Fits registry event)
        (Registry.start outside) events := by
  apply everyStep_iff Kept (kept_start outside)
  · intro registry event next kept taken
    cases event with
    | register nfd text portbuffer beyond =>
        rw [← Option.some.inj taken]
        simp only [Sound, Fits, inRange_register_iff kept, and_true]
    | request text beyond =>
        rw [← Option.some.inj taken]
        simp only [Sound, Fits, inRange_request_iff kept, and_assoc]
        apply and_congr_right
        intro above
        apply and_congr_right
        intro below
        exact answers_iff kept ⟨above, below⟩
  · intro registry event next kept taken sound
    cases event with
    | register nfd text portbuffer beyond =>
        rw [← Option.some.inj taken] at sound ⊢
        exact kept.register ((inRange_register_iff kept _ _).mp sound.1) nfd _
    | request text beyond =>
        rw [← Option.some.inj taken] at sound ⊢
        exact kept.request ((inRange_request_iff kept _).mp sound.1)

/-- The request for service 0 reads the entry before the array. -/
theorem request_zero_unsound :
    ¬ EveryStep Registry.step Sound
      (Registry.start fun _ => { port := 0, sfd := 0, available := 0 })
      [.request [0x30#8] []] := by
  intro every
  have ⟨sound, _⟩ := every _ rfl
  have number : numberOf [0x30#8] [] = 0 := by
    decide
  have inside := (inRange_request_iff (kept_start _) _).mp sound.1
  rw [number] at inside
  exact absurd inside.1 (by decide)

end NetLab.Mss
