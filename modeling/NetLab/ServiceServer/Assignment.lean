import NetLab.ServiceServer.Basic
import NetLab.Systems.Runs

/-!
# Servers and the clients that hold them

The main server handles one message of a client at a time: a request, which the
reader notices and the writer answers, or the release of a server. Which client
holds which server is recorded beside the main server, which does not know it.

A release frees the server with the number 0, whichever was held, so a table entry
other than the first is never freed; and while no entry is free, `start` is still
the number assigned last. Both together say which requests are given a server that
somebody else holds.
-/

namespace NetLab.ServiceServer

open NetLab.Posix NetLab.Systems

section Release

variable {k : ℕ}

/-- The server `k` is given back: its entry becomes 0 and the others stay as they are, when the
message that assigned it goes through the client and the client's message through the main
server. -/
def GivesBack (server : MainServer) (k : ℕ) : Prop :=
  let client := Client.start.threadRead (assignment k)
  let after := server.threadRead client.quitMessage
  after.status k = 0 ∧ ∀ j, j ≠ k → after.status j = server.status j

/-- Only the first server is given back; another one is only free afterwards if it was free. -/
theorem givesBack_iff (server : MainServer) (k : ℕ) :
    GivesBack server k ↔ k = 0 ∨ server.status k = 0 ∧ server.status 0 = 0 := by
  simp only [GivesBack, threadRead_quitMessage]
  rcases Nat.eq_zero_or_pos k with rfl | positive
  · simp only [Function.update_self, true_or, iff_true, true_and]
    intro j other
    exact Function.update_of_ne other _ _
  · have apart : k ≠ 0 := positive.ne'
    simp only [Function.update_of_ne apart, apart, false_or, and_congr_right_iff]
    intro free
    constructor
    · intro unchanged
      simpa using (unchanged 0 apart.symm).symm
    · intro first j other
      rcases eq_or_ne j 0 with rfl | later
      · rw [Function.update_self, first]
      · exact Function.update_of_ne later _ _

/-- With both servers taken, the second is not free after it was given back. -/
theorem second_not_givenBack :
    ¬ GivesBack { MainServer.initial 2 with status := fun _ => 1 } 1 := by
  simp only [GivesBack, threadRead_quitMessage]
  rintro ⟨freed, _⟩
  cases freed

end Release

/-- The main server, and which server each client holds. -/
structure Services where
  server : MainServer
  holds : ℕ → Option ℕ

def Services.initial (number : ℕ) : Services where
  server := MainServer.initial number
  holds := fun _ => none

inductive Event where
  | request (client : ℕ)
  | release (client : ℕ)
deriving DecidableEq, Repr

/-- The main server handles a message: the request of a client that holds no server, or the message
of one that gives its server back. -/
def Services.handle (services : Services) : Event → Option Services
  | .request client =>
      if services.holds client = none then
        let (_, server) := (services.server.threadRead Client.request).threadWrite
        some { server, holds := Function.update services.holds client (some server.start) }
      else none
  | .release client =>
      (services.holds client).map fun k =>
        { server := services.server.threadRead (Client.start.threadRead (assignment k)).quitMessage
          holds := Function.update services.holds client none }

/-- A request is not answered with a server that another client holds. -/
def AssignedAlone (before : Services) (event : Event) (after : Services) : Prop :=
  match event with
  | .request _ => ∀ other, before.holds other ≠ some after.server.start
  | .release _ => True

/-- At a request there is a free entry in the table, and if it is the first one, no client holds the
first server. -/
def SlotFree (before : Services) : Event → Prop
  | .request _ =>
      (∃ j < before.server.count, before.server.status j = 0) ∧
      (before.server.status 0 = 0 → ∀ other, before.holds other ≠ some 0)
  | .release _ => True

/-- What the table says about the clients that hold servers. -/
structure TableInvariant (services : Services) : Prop where
  someServer : 0 < services.server.count
  free : ∀ j ≠ 0, services.server.status j = 0 → ∀ client, services.holds client ≠ some j
  full : (∀ j < services.server.count, services.server.status j ≠ 0) →
    ∃ client, services.holds client = some services.server.start

section Steps

variable {services next : Services} {client : ℕ}

theorem tableInvariant_initial {number : ℕ} (positive : 0 < number) :
    TableInvariant (Services.initial number) := by
  constructor
  case someServer => exact positive
  case free => exact fun _ _ _ _ => nofun
  case full => exact fun taken => absurd rfl (taken 0 positive)

/-- What a request does: the number the loop found is assigned and marked. -/
theorem handle_request (handled : services.handle (.request client) = some next) :
    next.server.count = services.server.count ∧
      next.server.start = services.server.freeServer ∧
      next.server.status = Function.update services.server.status services.server.freeServer 1 ∧
      next.holds = Function.update services.holds client (some services.server.freeServer) := by
  simp only [Services.handle, Option.ite_none_right_eq_some, Option.some.injEq] at handled
  rcases handled with ⟨_, rfl⟩
  rw [threadRead_request]
  exact ⟨rfl, rfl, rfl, rfl⟩

theorem exists_handle_request (idle : services.holds client = none) :
    ∃ next, services.handle (.request client) = some next :=
  ⟨_, if_pos idle⟩

/-- What a release does: the first entry is freed. -/
theorem handle_release (handled : services.handle (.release client) = some next) :
    next.server.count = services.server.count ∧
      next.server.status = Function.update services.server.status 0 0 ∧
      next.holds = Function.update services.holds client none := by
  rcases Option.map_eq_some_iff.mp handled with ⟨k, _, rfl⟩
  rw [threadRead_quitMessage]
  exact ⟨rfl, rfl, rfl⟩

theorem tableInvariant_handle {event : Event} (invariant : TableInvariant services)
    (handled : services.handle event = some next) : TableInvariant next := by
  cases event with
  | request client =>
      rcases handle_request handled with ⟨count, start, status, holds⟩
      constructor
      case someServer => exact count ▸ invariant.someServer
      case free =>
        intro j later unmarked other
        have apart : j ≠ services.server.freeServer := by
          rintro rfl
          rw [status, Function.update_self] at unmarked
          cases unmarked
        rw [status, Function.update_of_ne apart] at unmarked
        rw [holds]
        rcases eq_or_ne other client with rfl | different
        · rw [Function.update_self]
          exact fun same => apart (Option.some.inj same).symm
        · rw [Function.update_of_ne different]
          exact invariant.free j later unmarked other
      case full =>
        intro _
        exact ⟨client, by rw [holds, start, Function.update_self]⟩
  | release client =>
      rcases handle_release handled with ⟨count, status, holds⟩
      constructor
      case someServer => exact count ▸ invariant.someServer
      case free =>
        intro j later unmarked other
        rw [status, Function.update_of_ne later] at unmarked
        rw [holds]
        rcases eq_or_ne other client with rfl | different
        · rw [Function.update_self]
          exact nofun
        · rw [Function.update_of_ne different]
          exact invariant.free j later unmarked other
      case full =>
        intro taken
        have first := taken 0 (count ▸ invariant.someServer)
        rw [status, Function.update_self] at first
        exact absurd rfl first

/-- Where the table says what it should, a request gets a server of its own exactly when a slot is
free. -/
theorem assignedAlone_iff {event : Event} (invariant : TableInvariant services)
    (handled : services.handle event = some next) :
    AssignedAlone services event next ↔ SlotFree services event := by
  cases event with
  | release client => exact Iff.rfl
  | request client =>
      rcases handle_request handled with ⟨_, start, _, _⟩
      simp only [AssignedAlone, SlotFree, start]
      rcases freeServer_spec services.server with ⟨free, inside, earlier⟩ | ⟨taken, kept⟩
      · have exists_free : ∃ j < services.server.count, services.server.status j = 0 :=
          ⟨_, inside, free⟩
        rcases Nat.eq_zero_or_pos services.server.freeServer with first | later
        · rw [first] at free ⊢
          simp only [exists_free, free, true_and, forall_const]
        · apply iff_of_true (invariant.free _ later.ne' free)
          exact ⟨exists_free, fun first => absurd first (earlier 0 later)⟩
      · apply iff_of_false
        · rcases invariant.full taken with ⟨holder, holds⟩
          intro alone
          exact alone holder (kept ▸ holds)
        · rintro ⟨⟨j, inside, free⟩, _⟩
          exact taken j inside free

end Steps

/-- In a run of the main server, no server is assigned while another client holds it exactly when
every request finds a free slot, and does not find the first one free while it is held. -/
theorem assignedAlone_iff_slotFree (number : ℕ) (positive : 0 < number) (events : List Event) :
    EveryStep Services.handle AssignedAlone (Services.initial number) events ↔
      EveryStep Services.handle (fun before event _ => SlotFree before event)
        (Services.initial number) events := by
  apply everyStep_iff TableInvariant (tableInvariant_initial positive)
  · intro before event after invariant handled
    exact assignedAlone_iff invariant handled
  · intro before event after invariant handled _
    exact tableInvariant_handle invariant handled

/-- Of two servers, the first is assigned again after it was given back. -/
theorem assignedAlone_afterRelease :
    EveryStep Services.handle AssignedAlone (Services.initial 2)
      [.request 0, .release 0, .request 1] := by
  apply (assignedAlone_iff_slotFree 2 (by decide) _).mpr
  intro second requested
  refine ⟨⟨⟨0, by decide, rfl⟩, fun _ _ => nofun⟩, fun third released => ⟨trivial, ?_⟩⟩
  have ⟨count, _, _, holds⟩ := handle_request requested
  have ⟨kept, status, returned⟩ := handle_release released
  intro fourth _
  have free : third.server.status 0 = 0 := by
    rw [status, Function.update_self]
  have nobody : ∀ other, third.holds other = none := by
    intro other
    rw [returned, holds, Function.update_idem]
    exact congrFun (Function.update_eq_self 0 (Services.initial 2).holds) other
  refine ⟨⟨⟨0, ?_, free⟩, fun _ other => ?_⟩, everyStep_nil⟩
  · rw [kept, count]
    decide
  · rw [nobody]
    exact nofun

/-- With a single server, the second client is given the server of the first. -/
theorem second_request_shares : ¬ EveryStep Services.handle AssignedAlone (Services.initial 1)
    [.request 0, .request 1] := by
  intro every
  rcases exists_handle_request (rfl : (Services.initial 1).holds 0 = none) with ⟨after, first⟩
  have ⟨count, start, status, holds⟩ := handle_request first
  have only : (Services.initial 1).server.freeServer = 0 := rfl
  rw [only] at start status holds
  have idle : after.holds 1 = none := by
    rw [holds]
    rfl
  rcases exists_handle_request idle with ⟨final, second⟩
  have shared : final.server.start = 0 := by
    rw [(handle_request second).2.1, MainServer.freeServer, count, status, start]
    rfl
  have alone := ((everyStep_cons second).mp ((everyStep_cons first).mp every).2).1 0
  rw [shared, holds] at alone
  exact alone rfl

end NetLab.ServiceServer
