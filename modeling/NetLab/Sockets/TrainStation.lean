import NetLab.Imperative.Loop
import NetLab.Posix.Text
import Mathlib.Data.List.GetD
import Mathlib.Data.List.Induction

/-!
# The station master of `trainmain`

The station master gives each train that arrives a platform that is still free,
tells the platforms about it over new connections, and sends the train over the
connection to its platform. There are three platforms, and `broadcast` connects to
two of them. The third train is sent over a connection of the second one, or not
at all. The text that the platforms are told is left out.

`error_func` does not end the station master, so it goes on with the descriptor -1
when a call has failed.
-/

namespace NetLab.Sockets

open NetLab.Imperative NetLab.Posix

/-- The socket of the platform that is started with this argument. -/
def platSocket (argument : List Byte) : List Byte :=
  literal "plat_socket" ++ argument

/-- The socket of a platform. The platforms are started with their numbers counted from 1. -/
def platformSocket (k : ℕ) : List Byte :=
  platSocket (decimal (k + 1))

/-- A train, the descriptor it was sent over, and the socket that this was connected to. -/
structure Delivery where
  train : ℤ
  socket : ℤ
  path : List Byte
deriving DecidableEq, Repr

/-- The globals of `sm.c`, the descriptors it has opened and the trains it has sent. It closes no
descriptor, so a new one gets the next number; the entry is the path that a connected one leads
to. -/
structure Station where
  k : ℕ
  newfd : ℤ
  platAvailable : ℕ → ℤ
  descriptors : List (Option (List Byte))
  sent : List Delivery

/-- The station master before the first train, with the standard descriptors and `tsfd`. -/
def Station.start : Station where
  k := 0
  newfd := 0
  platAvailable := forUp 0 3 (fun i current => Function.update current i 1) fun _ => 0
  descriptors := [none, none, none, none]
  sent := []

/-- A round of the loop of `main`: whether `accept` returns a train, and whether `socket` and
`connect` succeed for each platform. -/
structure Arrival where
  accept : Bool
  socket : ℕ → Bool
  connect : ℕ → Bool

/-- What a descriptor is connected to. -/
def connection (descriptors : List (Option (List Byte))) : ℤ → Option (List Byte)
  | .ofNat fd => descriptors.getD fd none
  | .negSucc _ => none

def Station.openDescriptor (station : Station) (succeeds : Bool) : ℤ × Station :=
  if succeeds then
    (station.descriptors.length, { station with descriptors := station.descriptors ++ [none] })
  else (-1, station)

def Station.connect (station : Station) (fd : ℤ) (path : List Byte) (succeeds : Bool) : Station :=
  if 0 ≤ fd ∧ succeeds then
    { station with descriptors := station.descriptors.set fd.toNat (some path) }
  else station

/-- `sendmsg` fails on a descriptor that is not connected, and when there is no train to send. -/
def Station.sendFileDescriptor (station : Station) (socket fdToSend : ℤ) : Station :=
  match connection station.descriptors socket with
  | some path =>
      if 0 ≤ fdToSend then
        { station with sent := station.sent ++ [⟨fdToSend, socket, path⟩] }
      else station
  | none => station

/-- The body of the loop of `broadcast`. -/
def Station.notify (arrival : Arrival) (i : ℕ) (station : Station) : Station :=
  let (bsfd, opened) := station.openDescriptor (arrival.socket i)
  let connected := opened.connect bsfd (platSocket (decimal (i + 1))) (arrival.connect i)
  if i = connected.k then { connected with newfd := bsfd } else connected

def Station.broadcast (station : Station) (arrival : Arrival) : Station :=
  forUp 0 2 (Station.notify arrival) station

/-- The loop that looks for an available platform. -/
def Station.availablePlatform (station : Station) : Option ℕ :=
  (List.range 3).find? fun k => station.platAvailable k = 1

def Station.takePlatform (station : Station) (k : ℕ) : Station :=
  { station with
    k
    platAvailable := Function.update station.platAvailable k 0 }

/-- A round of the loop of `main`. -/
def Station.serve (station : Station) (arrival : Arrival) : Station :=
  let (nfd, accepted) := station.openDescriptor arrival.accept
  match accepted.availablePlatform with
  | some k =>
      let notified := (accepted.takePlatform k).broadcast arrival
      notified.sendFileDescriptor notified.newfd nfd
  | none => { accepted with k := 3 }

/-- The station master after these rounds. -/
def Station.after (arrivals : List Arrival) : Station :=
  arrivals.foldl Station.serve Station.start

/-- When a platform is marked for the train of this round, the train is sent to its socket, over a
descriptor that was not open before. -/
def Routed (before : Station) (arrival : Arrival) (after : Station) : Prop :=
  ∀ k, arrival.accept → before.platAvailable k = 1 → after.platAvailable k = 0 →
    ∃ socket : ℤ, before.descriptors.length ≤ socket ∧
      after.sent = before.sent ++ [⟨before.descriptors.length, socket, platformSocket k⟩]

/-- Every train that gets a platform is sent to it over a connection of its own round, and no two
trains are sent to the same platform. -/
structure RoutesTrains (arrivals : List Arrival) : Prop where
  routed : ∀ earlier arrival, earlier ++ [arrival] <+: arrivals →
    Routed (Station.after earlier) arrival (Station.after (earlier ++ [arrival]))
  apart : ((Station.after arrivals).sent.map Delivery.path).Nodup

/-- The train can be sent to this platform: `broadcast` comes to it, and its calls succeed. -/
structure Arrival.Reaches (arrival : Arrival) (k : ℕ) : Prop where
  called : k < 2
  opened : arrival.socket k
  connected : arrival.connect k

section Descriptors

variable {descriptors more : List (Option (List Byte))} {fd : ℤ}

theorem connection_append (older : fd < descriptors.length) :
    connection (descriptors ++ more) fd = connection descriptors fd := by
  cases fd with
  | ofNat fd => exact List.getD_append _ _ _ _ (Int.ofNat_lt.mp older)
  | negSucc _ => rfl

theorem connection_length (entry : Option (List Byte)) :
    connection (descriptors ++ [entry]) descriptors.length = entry := by
  simp [connection]

theorem mem_of_connection {path : List Byte} (connected : connection descriptors fd = some path) :
    some path ∈ descriptors := by
  cases fd with
  | ofNat fd =>
      rw [connection, List.getD_eq_getElem?_getD] at connected
      cases entry : descriptors[fd]? with
      | none =>
          rw [entry] at connected
          cases connected
      | some path =>
          rw [entry] at connected
          exact connected ▸ List.mem_of_getElem? entry
  | negSucc _ => cases connected

theorem platformSocket_injective : Function.Injective platformSocket := by
  intro i k same
  have numbers := congrArg atoi (List.append_cancel_left same)
  rw [atoi_decimal, atoi_decimal] at numbers
  omega

theorem openDescriptor_eq (station : Station) (succeeds : Bool) :
    station.openDescriptor succeeds =
      (if succeeds then (station.descriptors.length : ℤ) else -1,
        { station with
          descriptors := station.descriptors ++ if succeeds then [none] else [] }) := by
  cases succeeds with
  | false => simp [Station.openDescriptor]
  | true => rfl

/-- A train is sent over a connection, or it is not sent. -/
theorem sendFileDescriptor_cases (station : Station) (socket fdToSend : ℤ) :
    (connection station.descriptors socket = none ∨ fdToSend < 0) ∧
        station.sendFileDescriptor socket fdToSend = station ∨
      ∃ path, connection station.descriptors socket = some path ∧ 0 ≤ fdToSend ∧
        station.sendFileDescriptor socket fdToSend =
          { station with sent := station.sent ++ [⟨fdToSend, socket, path⟩] } := by
  rw [Station.sendFileDescriptor]
  cases connected : connection station.descriptors socket with
  | none => exact .inl ⟨.inl rfl, rfl⟩
  | some path =>
      rcases lt_or_ge fdToSend 0 with failed | train
      · exact .inl ⟨.inr failed, if_neg (not_le.mpr failed)⟩
      · exact .inr ⟨path, rfl, train, if_pos train⟩

end Descriptors

section Broadcast

variable {arrival : Arrival} {station before current : Station} {i : ℕ}

/-- What the descriptor of a round of `broadcast` is connected to. -/
def Arrival.target (arrival : Arrival) (i : ℕ) : Option (List Byte) :=
  if arrival.socket i ∧ arrival.connect i then some (platformSocket i) else none

/-- The entry of that descriptor, if it is opened. -/
def Arrival.entries (arrival : Arrival) (i : ℕ) : List (Option (List Byte)) :=
  if arrival.socket i then [arrival.target i] else []

theorem eq_of_mem_entries {path : List Byte} (listed : some path ∈ arrival.entries i) :
    path = platformSocket i := by
  rw [Arrival.entries, Arrival.target] at listed
  split_ifs at listed
  · exact Option.some.inj (List.mem_singleton.mp listed)
  · cases List.mem_singleton.mp listed
  · cases listed

theorem notify_eq : Station.notify arrival i station =
    { station with
      descriptors := station.descriptors ++ arrival.entries i
      newfd :=
        if i = station.k then
          if arrival.socket i then (station.descriptors.length : ℤ) else -1
        else station.newfd } := by
  have connected : (station.openDescriptor (arrival.socket i)).2.connect
      (station.openDescriptor (arrival.socket i)).1 (platSocket (decimal (i + 1)))
      (arrival.connect i) =
      { station with descriptors := station.descriptors ++ arrival.entries i } := by
    rw [openDescriptor_eq, Arrival.entries, Arrival.target, platformSocket]
    cases arrival.socket i with
    | false => simp [Station.connect]
    | true => cases arrival.connect i <;> simp [Station.connect]
  simp only [Station.notify, connected]
  rw [openDescriptor_eq]
  split
  case isTrue => rfl
  case isFalse => rfl

/-- The state of the loop of `broadcast` when it comes to `i`. -/
structure Notified (arrival : Arrival) (before : Station) (i : ℕ) (current : Station) : Prop where
  k : current.k = before.k
  platAvailable : current.platAvailable = before.platAvailable
  sent : current.sent = before.sent
  opened : ∃ entries, current.descriptors = before.descriptors ++ entries ∧
    ∀ path, some path ∈ entries → ∃ j < i, path = platformSocket j
  newfd : before.k < i →
    (current.newfd = -1 ∨ before.descriptors.length ≤ current.newfd) ∧
      current.newfd < current.descriptors.length ∧
      connection current.descriptors current.newfd = arrival.target before.k

theorem notified_start : Notified arrival before 0 before := by
  constructor
  case k => rfl
  case platAvailable => rfl
  case sent => rfl
  case opened => exact ⟨[], (List.append_nil _).symm, fun _ => nofun⟩
  case newfd => exact fun passed => absurd passed (Nat.not_lt_zero _)

theorem notify_notified (notified : Notified arrival before i current) :
    Notified arrival before (i + 1) (Station.notify arrival i current) := by
  rcases notified.opened with ⟨earlier, opened, leadTo⟩
  rw [notify_eq]
  constructor
  case k => exact notified.k
  case platAvailable => exact notified.platAvailable
  case sent => exact notified.sent
  case opened =>
    refine ⟨earlier ++ arrival.entries i, ?_, fun path listed => ?_⟩
    · rw [opened, List.append_assoc]
    · rcases List.mem_append.mp listed with inside | added
      · rcases leadTo path inside with ⟨j, before, same⟩
        exact ⟨j, Nat.lt_succ_of_lt before, same⟩
      · exact ⟨i, Nat.lt_succ_self i, eq_of_mem_entries added⟩
  case newfd =>
    intro passed
    rcases Nat.lt_succ_iff_lt_or_eq.mp passed with done | rfl
    · have other : i ≠ current.k := by
        rw [notified.k]
        exact done.ne'
      have ⟨fresh, inside, leads⟩ := notified.newfd done
      simp only [if_neg other]
      refine ⟨fresh, ?_, (connection_append inside).trans leads⟩
      rw [List.length_append]
      omega
    · have older : before.descriptors.length ≤ current.descriptors.length := by
        rw [opened, List.length_append]
        exact Nat.le_add_right _ _
      simp only [if_pos notified.k.symm, Arrival.entries]
      split
      case isTrue socket =>
        refine ⟨.inr (Int.ofNat_le.mpr older), ?_, connection_length _⟩
        simp
      case isFalse failed =>
        refine ⟨.inl rfl, ?_, ?_⟩
        · omega
        · rw [Arrival.target, if_neg (fun both => failed both.1)]
          rfl

theorem broadcast_notified : Notified arrival before 2 (before.broadcast arrival) := by
  apply forUp_induction (Notified arrival before) (Nat.zero_le 2) notified_start
  exact fun i current _ _ notified => notify_notified notified

end Broadcast

section Rounds

variable {n k : ℕ} {arrival : Arrival} {station : Station}

/-- The station master after `n` rounds: it has given away the platforms before `n`, and has
connected to the first two platforms only. -/
structure Serving (n : ℕ) (station : Station) : Prop where
  platAvailable : ∀ k, station.platAvailable k = if n ≤ k ∧ k < 3 then 1 else 0
  connected : ∀ path, some path ∈ station.descriptors → ∃ j < 2, path = platformSocket j

theorem Serving.available_iff (serving : Serving n station) :
    station.platAvailable k = 1 ↔ n ≤ k ∧ k < 3 := by
  rw [serving.platAvailable]
  split
  case isTrue free => exact iff_of_true rfl free
  case isFalse taken => exact iff_of_false (by decide) taken

theorem Serving.taken_iff (serving : Serving n station) :
    station.platAvailable k = 0 ↔ ¬ (n ≤ k ∧ k < 3) := by
  rw [serving.platAvailable]
  split
  case isTrue free => exact iff_of_false (by decide) (not_not_intro free)
  case isFalse taken => exact iff_of_true rfl taken

theorem serving_start : Serving 0 Station.start := by
  constructor
  case platAvailable => exact fun k => congrFun (forUp_fill (fun _ => 1) 0 3 fun _ => 0) k
  case connected => simp [Station.start]

theorem availablePlatform_of_lt (serving : Serving n station) (free : n < 3) :
    station.availablePlatform = some n := by
  apply List.find?_range_eq_some.mpr
  refine ⟨?_, List.mem_range.mpr free, fun k earlier => ?_⟩
  · exact decide_eq_true (serving.available_iff.mpr ⟨le_refl n, free⟩)
  · have taken : ¬ station.platAvailable k = 1 := by
      rw [serving.available_iff]
      omega
    rw [decide_eq_false taken]
    rfl

theorem availablePlatform_of_le (serving : Serving n station) (taken : 3 ≤ n) :
    station.availablePlatform = none := by
  apply List.find?_eq_none.mpr
  intro k listed
  have inside := List.mem_range.mp listed
  rw [decide_eq_true_eq, serving.available_iff]
  omega

theorem openDescriptor_serving (serving : Serving n station) (succeeds : Bool) :
    Serving n (station.openDescriptor succeeds).2 := by
  rw [openDescriptor_eq]
  constructor
  case platAvailable => exact serving.platAvailable
  case connected =>
    intro path listed
    rcases List.mem_append.mp listed with inside | added
    · exact serving.connected path inside
    · split at added <;> simp at added

theorem serve_of_le (serving : Serving n station) (taken : 3 ≤ n) :
    station.serve arrival = { (station.openDescriptor arrival.accept).2 with k := 3 } := by
  have full := availablePlatform_of_le (openDescriptor_serving serving arrival.accept) taken
  simp only [Station.serve, full]

/-- A round that takes the platform `n`: the broadcast, and then the train is sent or not. -/
theorem serve_of_lt (arrival : Arrival) (serving : Serving n station) (free : n < 3) :
    ∃ notified : Station,
      Notified arrival ((station.openDescriptor arrival.accept).2.takePlatform n) 2 notified ∧
      station.serve arrival = notified.sendFileDescriptor notified.newfd
        (if arrival.accept then (station.descriptors.length : ℤ) else -1) := by
  have available := availablePlatform_of_lt (openDescriptor_serving serving arrival.accept) free
  refine ⟨_, broadcast_notified, ?_⟩
  simp only [Station.serve, available]
  rw [openDescriptor_eq]

theorem sendFileDescriptor_frame (station : Station) (socket fdToSend : ℤ) :
    (station.sendFileDescriptor socket fdToSend).platAvailable = station.platAvailable ∧
      (station.sendFileDescriptor socket fdToSend).descriptors = station.descriptors := by
  rcases sendFileDescriptor_cases station socket fdToSend with ⟨_, same⟩ | ⟨path, _, _, sent⟩
  · rw [same]
    exact ⟨rfl, rfl⟩
  · rw [sent]
    exact ⟨rfl, rfl⟩

theorem notified_serving {notified : Station} (serving : Serving n station)
    (loop : Notified arrival (station.takePlatform n) 2 notified) : Serving (n + 1) notified := by
  constructor
  case platAvailable =>
    intro k
    rw [loop.platAvailable]
    rcases eq_or_ne k n with rfl | other
    · exact (Function.update_self _ _ _).trans (if_neg (by omega)).symm
    · refine (Function.update_of_ne other _ _).trans ((serving.platAvailable k).trans ?_)
      exact if_congr (by omega) rfl rfl
  case connected =>
    intro path listed
    rcases loop.opened with ⟨entries, opened, leadTo⟩
    rw [opened] at listed
    rcases List.mem_append.mp listed with earlier | added
    · exact serving.connected path earlier
    · exact leadTo path added

theorem serve_serving (arrival : Arrival) (serving : Serving n station) :
    Serving (n + 1) (station.serve arrival) := by
  have accepted := openDescriptor_serving serving arrival.accept
  rcases Nat.lt_or_ge n 3 with free | taken
  · rcases serve_of_lt arrival serving free with ⟨notified, loop, served⟩
    have ⟨available, descriptors⟩ := sendFileDescriptor_frame notified notified.newfd
      (if arrival.accept then (station.descriptors.length : ℤ) else -1)
    have next := notified_serving accepted loop
    rw [← served] at available descriptors
    exact ⟨available ▸ next.platAvailable, descriptors ▸ next.connected⟩
  · rw [serve_of_le serving taken]
    constructor
    case platAvailable =>
      intro k
      refine (accepted.platAvailable k).trans ?_
      exact if_congr (by omega) rfl rfl
    case connected => exact accepted.connected

theorem serving_after (arrivals : List Arrival) :
    Serving arrivals.length (Station.after arrivals) := by
  induction arrivals using List.reverseRecOn with
  | nil => exact serving_start
  | append_singleton arrivals arrival ih =>
      rw [Station.after, List.foldl_append, List.length_append]
      exact serve_serving arrival ih

theorem serve_of_not_accept (serving : Serving n station) (nothing : ¬ arrival.accept) :
    (station.serve arrival).sent = station.sent := by
  rcases Nat.lt_or_ge n 3 with free | taken
  · rcases serve_of_lt arrival serving free with ⟨notified, loop, served⟩
    rw [if_neg nothing] at served
    rcases sendFileDescriptor_cases notified notified.newfd (-1) with
      ⟨_, kept⟩ | ⟨_, _, train, _⟩
    · rw [served, kept, loop.sent, openDescriptor_eq]
      rfl
    · exact absurd train (by decide)
  · rw [serve_of_le serving taken, openDescriptor_eq]

theorem serve_of_reaches (serving : Serving n station) (train : arrival.accept)
    (reaches : arrival.Reaches n) : ∃ socket : ℤ, station.descriptors.length ≤ socket ∧
      (station.serve arrival).sent =
        station.sent ++ [⟨station.descriptors.length, socket, platformSocket n⟩] := by
  have called := reaches.called
  rcases serve_of_lt arrival serving (by omega) with ⟨notified, loop, served⟩
  rw [if_pos train] at served
  have ⟨fresh, _, leads⟩ := loop.newfd called
  have target : arrival.target n = some (platformSocket n) :=
    if_pos ⟨reaches.opened, reaches.connected⟩
  have connected : connection notified.descriptors notified.newfd = some (platformSocket n) :=
    leads.trans target
  rw [openDescriptor_eq, if_pos train] at loop fresh
  rcases sendFileDescriptor_cases notified notified.newfd station.descriptors.length with
    ⟨unsent, _⟩ | ⟨path, led, _, sent⟩
  · rcases unsent with closed | failed
    · cases closed.symm.trans connected
    · omega
  · cases led.symm.trans connected
    refine ⟨notified.newfd, ?_, ?_⟩
    · rcases fresh with failed | opened
      · rw [failed] at connected
        cases connected
      · apply le_trans _ opened
        exact Int.ofNat_le.mpr (List.prefix_append _ _).length_le
    · rw [served, sent, loop.sent]
      rfl

theorem reaches_of_sent (serving : Serving n station) (free : n < 3) {train socket : ℤ}
    (sent : (station.serve arrival).sent = station.sent ++ [⟨train, socket, platformSocket n⟩]) :
    arrival.Reaches n := by
  rcases serve_of_lt arrival serving free with ⟨notified, loop, served⟩
  have next := notified_serving (openDescriptor_serving serving arrival.accept) loop
  have before : notified.sent = station.sent := by
    rw [loop.sent, openDescriptor_eq]
    rfl
  rcases sendFileDescriptor_cases notified notified.newfd
      (if arrival.accept then (station.descriptors.length : ℤ) else -1) with
    ⟨_, kept⟩ | ⟨path, connected, _, delivered⟩
  · rw [served, kept, before] at sent
    cases List.self_eq_append_right.mp sent
  · rw [served, delivered, before] at sent
    have last := List.singleton_inj.mp (List.append_cancel_left sent)
    have same : path = platformSocket n := congrArg Delivery.path last
    rw [same] at connected
    rcases next.connected _ (mem_of_connection connected) with ⟨j, called, shared⟩
    cases platformSocket_injective shared
    have ⟨_, _, leads⟩ := loop.newfd called
    have both : arrival.socket n ∧ arrival.connect n := by
      by_contra failed
      cases (leads.trans (if_neg failed)).symm.trans connected
    exact ⟨called, both.1, both.2⟩

theorem routed_iff (serving : Serving n station) :
    Routed station arrival (station.serve arrival) ↔
      (n < 3 → arrival.accept → arrival.Reaches n) := by
  have next := serve_serving arrival serving
  constructor
  · intro routed free train
    rcases routed n train (serving.available_iff.mpr ⟨le_refl n, free⟩)
      (next.taken_iff.mpr (by omega)) with ⟨socket, _, sent⟩
    exact reaches_of_sent serving free sent
  · intro reaches k train available marked
    have ⟨waiting, inside⟩ := serving.available_iff.mp available
    have taken := next.taken_iff.mp marked
    obtain rfl : k = n := by omega
    exact serve_of_reaches serving train (reaches inside train)

/-- The trains that were sent are at different platforms, all of them before `n`. -/
structure Apart (n : ℕ) (station : Station) : Prop where
  nodup : (station.sent.map Delivery.path).Nodup
  marked : ∀ delivery ∈ station.sent, ∃ j < n, delivery.path = platformSocket j

theorem serve_apart (serving : Serving n station)
    (routed : Routed station arrival (station.serve arrival)) (apart : Apart n station) :
    Apart (n + 1) (station.serve arrival) := by
  have earlier : ∀ delivery ∈ station.sent, ∃ j < n + 1, delivery.path = platformSocket j := by
    intro delivery listed
    rcases apart.marked delivery listed with ⟨j, before, path⟩
    exact ⟨j, Nat.lt_succ_of_lt before, path⟩
  by_cases assigned : n < 3 ∧ arrival.accept
  · have next := serve_serving arrival serving
    rcases routed n assigned.2 (serving.available_iff.mpr ⟨le_refl n, assigned.1⟩)
      (next.taken_iff.mpr (by omega)) with ⟨socket, _, sent⟩
    constructor
    case nodup =>
      rw [sent, List.map_append]
      apply apart.nodup.append (List.nodup_singleton _)
      intro path inside added
      rcases List.mem_map.mp inside with ⟨delivery, listed, rfl⟩
      rcases apart.marked delivery listed with ⟨j, before, path⟩
      have same := platformSocket_injective (path.symm.trans (List.mem_singleton.mp added))
      exact before.ne same
    case marked =>
      rw [sent, List.forall_mem_append, List.forall_mem_singleton]
      exact ⟨earlier, n, Nat.lt_succ_self n, rfl⟩
  · have same : (station.serve arrival).sent = station.sent := by
      rcases Nat.lt_or_ge n 3 with free | taken
      · exact serve_of_not_accept serving fun train => assigned ⟨free, train⟩
      · rw [serve_of_le serving taken, openDescriptor_eq]
    rw [← same] at earlier
    exact ⟨same ▸ apart.nodup, earlier⟩

end Rounds

theorem after_append_singleton (earlier : List Arrival) (arrival : Arrival) :
    Station.after (earlier ++ [arrival]) = (Station.after earlier).serve arrival :=
  List.foldl_append

/-- When each train is routed, no two are sent to the same platform. -/
theorem apart_of_routed {arrivals : List Arrival}
    (routed : ∀ earlier arrival, earlier ++ [arrival] <+: arrivals →
      Routed (Station.after earlier) arrival (Station.after (earlier ++ [arrival]))) :
    Apart arrivals.length (Station.after arrivals) := by
  induction arrivals using List.reverseRecOn with
  | nil => exact ⟨List.nodup_nil, fun _ => nofun⟩
  | append_singleton arrivals arrival ih =>
      have last := routed arrivals arrival List.prefix_rfl
      rw [after_append_singleton] at last ⊢
      rw [List.length_append]
      apply serve_apart (serving_after arrivals) last
      apply ih
      intro earlier arrival isPrefix
      exact routed earlier arrival (isPrefix.trans (List.prefix_append _ _))

/-- Every train is sent to its own platform exactly when, of the first three rounds, only the first
two have a train, and the connections to their platforms can be made. -/
theorem routesTrains_iff (arrivals : List Arrival) :
    RoutesTrains arrivals ↔
      ∀ earlier arrival, earlier ++ [arrival] <+: arrivals → earlier.length < 3 →
        arrival.accept → arrival.Reaches earlier.length := by
  have pointwise (earlier : List Arrival) (arrival : Arrival) :
      Routed (Station.after earlier) arrival (Station.after (earlier ++ [arrival])) ↔
        (earlier.length < 3 → arrival.accept → arrival.Reaches earlier.length) := by
    rw [after_append_singleton]
    exact routed_iff (serving_after earlier)
  constructor
  · intro routes earlier arrival isPrefix
    exact (pointwise earlier arrival).mp (routes.routed earlier arrival isPrefix)
  · intro reaches
    have routed : ∀ earlier arrival, earlier ++ [arrival] <+: arrivals →
        Routed (Station.after earlier) arrival (Station.after (earlier ++ [arrival])) :=
      fun earlier arrival isPrefix =>
        (pointwise earlier arrival).mpr (reaches earlier arrival isPrefix)
    exact ⟨routed, (apart_of_routed routed).nodup⟩

/-- Three trains for which every call succeeds: the third one is sent to the platform of the
second. -/
theorem third_train_misrouted :
    ¬ RoutesTrains (List.replicate 3 ⟨true, fun _ => true, fun _ => true⟩) := by
  intro routes
  exact absurd routes.apart (by decide)

end NetLab.Sockets
