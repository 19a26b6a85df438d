import NetLab.Studio.Request
import NetLab.Threads.Handover

/-!
# The permissions of a set

A set of the studio, or an actor, answers each connection of the director in a thread of its own.
The threads share `available_count` and find their descriptor in the variable of the main thread,
without locks. What keeps them apart is the director, who waits for an answer before it connects
again.
-/

namespace NetLab.Studio

open NetLab.Systems NetLab.Threads

/-- How far `thread_funcmain` has got: it fetches its descriptor, compares the count with 0 and
then with 2, increments it by a load and a store, and sends. -/
inductive Phase where
  | starting
  | testing
  | doubting
  | incrementing (perm : ℤ)
  | storing (perm count : ℤ)
  | sending (perm : ℤ)
  | done
deriving DecidableEq

/-- The director with the answers it has received, and the process of a set: the connections that
are to be accepted, its main thread, and the threads with what they have sent. A connection goes by
the number of those before it. -/
structure SetServer where
  asked : ℕ
  awaiting : Bool
  heard : List ℤ
  backlog : List ℕ
  handover : Handover ℕ
  availableCount : ℤ
  phases : List Phase
  sent : List (ℕ × Record)

inductive Turn where
  | connects
  | hears
  | accepts
  | creates
  | acts (thread : ℕ) (permbuffer : Record)

namespace SetServer

/-- Both `set.c` and `act.c` have an array of five threads. -/
def acceptor : Acceptor where
  threads := 5
  maxClients := none

/-- Nobody has asked, and `nfd` holds anything. -/
def start (nfd : ℕ) : SetServer where
  asked := 0
  awaiting := false
  heard := []
  backlog := []
  handover := .start nfd
  availableCount := 0
  phases := []
  sent := []

def toPhase (set : SetServer) (thread : ℕ) (phase : Phase) : SetServer :=
  { set with phases := set.phases.set thread phase }

/-- The next access of a thread to what it shares with the others. -/
def act (set : SetServer) (thread : ℕ) (permbuffer : Record) : Phase → Option SetServer
  | .starting =>
      (acceptor.step set.handover (.fetches thread)).map fun handover =>
        { set with handover }.toPhase thread .testing
  | .testing =>
      some (set.toPhase thread (if set.availableCount = 0 then .incrementing 1 else .doubting))
  | .doubting =>
      some (set.toPhase thread (.incrementing (if set.availableCount = 2 then 1 else 0)))
  | .incrementing perm => some (set.toPhase thread (.storing perm set.availableCount))
  | .storing perm count =>
      some ({ set with availableCount := count + 1 }.toPhase thread (.sending perm))
  | .sending perm =>
      match set.handover.serves[thread]? with
      | some (some nfd) =>
          some ({ set with sent := set.sent ++ [(nfd, printNumber permbuffer perm)] }.toPhase
            thread .done)
      | _ => none
  | .done => none

def step (set : SetServer) : Turn → Option SetServer
  | .connects =>
      if set.awaiting = false then
        some { set with
          asked := set.asked + 1
          awaiting := true
          backlog := set.backlog ++ [set.asked] }
      else none
  | .hears =>
      if set.awaiting = true then
        (set.sent.lookup (set.asked - 1)).map fun record =>
          { set with awaiting := false, heard := set.heard ++ [readNumber record] }
      else none
  | .accepts =>
      match set.backlog with
      | [] => none
      | connection :: backlog =>
          (acceptor.step set.handover (.accepts connection)).map fun handover =>
            { set with handover, backlog }
  | .creates =>
      (acceptor.step set.handover .creates).map fun handover =>
        { set with handover, phases := set.phases ++ [.starting] }
  | .acts thread permbuffer => (set.phases[thread]?).bind (set.act thread permbuffer)

end SetServer

/-- The first request is granted, and the third. -/
def perm (request : ℕ) : ℤ :=
  if request = 0 ∨ request = 2 then 1 else 0

/-! ## One request after the other -/

/-- Where the request is that the director waits for: on its way to the main thread, with it, or
with its own thread. -/
inductive Stage where
  | queued
  | accepted
  | threaded (phase : Phase)

/-- What a thread holds fits the number of its request. -/
inductive Stage.Fits (request : ℕ) : Stage → Prop where
  | queued : Stage.Fits request .queued
  | accepted : Stage.Fits request .accepted
  | starting : Stage.Fits request (.threaded .starting)
  | testing : Stage.Fits request (.threaded .testing)
  | doubting (later : request ≠ 0) : Stage.Fits request (.threaded .doubting)
  | incrementing : Stage.Fits request (.threaded (.incrementing (perm request)))
  | storing : Stage.Fits request (.threaded (.storing (perm request) request))
  | sending : Stage.Fits request (.threaded (.sending (perm request)))
  | done : Stage.Fits request (.threaded .done)

def Phase.counted : Phase → ℕ
  | .sending _ | .done => 1
  | _ => 0

def Stage.answered : Stage → ℕ
  | .threaded .done => 1
  | _ => 0

def Phase.fetched (request : ℕ) : Phase → Option ℕ
  | .starting => none
  | _ => some request

/-- So many requests are done with, and nothing goes on. -/
def SetServer.quiet (requests nfd : ℕ) (sent : List (ℕ × Record)) : SetServer where
  asked := requests
  awaiting := false
  heard := (List.range requests).map perm
  backlog := []
  handover := {
    nfd
    accepted := false
    handed := List.range requests
    serves := (List.range requests).map some }
  availableCount := requests
  phases := List.replicate requests .done
  sent

/-- One more has been made, and nothing else goes on. -/
def SetServer.busy (requests nfd : ℕ) (sent : List (ℕ × Record)) : Stage → SetServer
  | .queued =>
      { quiet requests nfd sent with
        asked := requests + 1
        awaiting := true
        backlog := [requests] }
  | .accepted =>
      { quiet requests nfd sent with
        asked := requests + 1
        awaiting := true
        handover := { (quiet requests requests sent).handover with accepted := true } }
  | .threaded phase =>
      { quiet requests nfd sent with
        asked := requests + 1
        awaiting := true
        handover := {
          nfd := requests
          accepted := false
          handed := List.range requests ++ [requests]
          serves := (List.range requests).map some ++ [phase.fetched requests] }
        availableCount := requests + phase.counted
        phases := List.replicate requests .done ++ [phase] }

/-- The answers to so many requests, one on each connection. -/
structure Answered (requests : ℕ) (sent : List (ℕ × Record)) : Prop where
  connections : sent.map Prod.fst = List.range requests
  perms : sent.map (readNumber ∘ Prod.snd) = (List.range requests).map perm

inductive Serial : SetServer → Prop where
  | quiet (requests nfd : ℕ) (sent : List (ℕ × Record)) (answered : Answered requests sent) :
      Serial (.quiet requests nfd sent)
  | busy (requests nfd : ℕ) (sent : List (ℕ × Record)) (stage : Stage)
      (fits : stage.Fits requests) (answered : Answered (requests + stage.answered) sent) :
      Serial (.busy requests nfd sent stage)

section Answered

variable {requests : ℕ} {sent : List (ℕ × Record)}

theorem Answered.lookup_eq_none (answered : Answered requests sent) :
    sent.lookup requests = none := by
  rw [List.lookup_eq_none_iff]
  rintro ⟨connection, record⟩ mem
  have listed := List.mem_map_of_mem (f := Prod.fst) mem
  rw [answered.connections, List.mem_range] at listed
  simpa using listed.ne'

theorem Answered.append (answered : Answered requests sent) {record : Record}
    (read : readNumber record = perm requests) :
    Answered (requests + 1) (sent ++ [(requests, record)]) := by
  constructor
  case connections =>
    rw [List.map_append, answered.connections, List.range_succ, List.map_singleton]
  case perms =>
    rw [List.map_append, answered.perms, List.range_succ, List.map_append, List.map_singleton,
      List.map_singleton, Function.comp_apply, read]

theorem Answered.lookup (answered : Answered (requests + 1) sent) :
    ∃ record, sent.lookup requests = some record ∧ readNumber record = perm requests := by
  rcases List.eq_nil_or_concat sent with rfl | ⟨earlier, ⟨connection, record⟩, rfl⟩
  · have none := answered.connections
    rw [List.range_succ, List.map_nil] at none
    exact absurd none.symm (List.concat_ne_nil _ _)
  · have connections := answered.connections
    have perms := answered.perms
    rw [List.concat_eq_append, List.map_append, List.range_succ] at connections perms
    rw [List.map_append] at perms
    rcases List.append_inj' connections rfl with ⟨before, last⟩
    rcases List.append_inj' perms rfl with ⟨beforePerms, lastPerm⟩
    cases last
    have fresh := Answered.lookup_eq_none ⟨before, beforePerms⟩
    refine ⟨record, ?_, List.singleton_inj.mp lastPerm⟩
    rw [List.concat_eq_append, List.lookup_append, fresh, Option.none_or, List.lookup_cons_self]

end Answered

theorem readNumber_perm (permbuffer : Record) (request : ℕ) :
    readNumber (printNumber permbuffer (perm request)) = perm request := by
  apply readNumber_printNumber
  rw [perm, IsInt]
  split_ifs <;> decide

section Steps

variable {requests nfd : ℕ} {sent : List (ℕ × Record)} {stage : Stage} {phase : Phase}
  {thread : ℕ} {permbuffer : Record} {turn : Turn} {set next : SetServer}

/-- The threads of earlier requests have nothing to do. -/
theorem acts_quiet (phases : set.phases = List.replicate requests .done) :
    set.step (.acts thread permbuffer) = none := by
  rw [SetServer.step, phases, List.getElem?_replicate]
  split_ifs <;> rfl

theorem acts_threaded
    (taken : (SetServer.busy requests nfd sent (.threaded phase)).step (.acts thread permbuffer) =
      some next) :
    thread = requests ∧
      (SetServer.busy requests nfd sent (.threaded phase)).act requests permbuffer phase =
        some next := by
  rw [SetServer.step, Option.bind_eq_some_iff] at taken
  rcases taken with ⟨current, found, acted⟩
  simp only [SetServer.busy] at found
  rcases Nat.lt_trichotomy thread requests with before | rfl | after
  · rw [List.getElem?_append_left (by simpa using before), List.getElem?_replicate,
      if_pos before] at found
    cases found
    cases acted
  · rw [List.getElem?_append_right (by simp)] at found
    simp only [List.length_replicate, Nat.sub_self, List.getElem?_cons_zero,
      Option.some.injEq] at found
    subst found
    exact ⟨rfl, acted⟩
  · rw [List.getElem?_eq_none (by simpa using after)] at found
    cases found

theorem toPhase_threaded (phase later : Phase) (same : later.counted = phase.counted)
    (fetched : later.fetched requests = phase.fetched requests) :
    (SetServer.busy requests nfd sent (.threaded phase)).toPhase requests later =
      SetServer.busy requests nfd sent (.threaded later) := by
  simp only [SetServer.toPhase, SetServer.busy, same, fetched]
  simp

/-- What a thread does next keeps what it holds in accordance with its request. -/
theorem Serial.act (fits : (Stage.threaded phase).Fits requests)
    (answered : Answered (requests + (Stage.threaded phase).answered) sent)
    (acted : (SetServer.busy requests nfd sent (.threaded phase)).act requests permbuffer phase =
      some next) : Serial next := by
  cases fits with
  | starting =>
      rw [SetServer.act, Option.map_eq_some_iff] at acted
      rcases acted with ⟨handover, fetched, rfl⟩
      rcases step_fetches fetched with ⟨_, rfl⟩
      have same : Serial (SetServer.busy requests nfd sent (.threaded .testing)) :=
        .busy requests nfd sent _ .testing answered
      convert same using 1
      simp [SetServer.toPhase, SetServer.busy, Phase.counted, Phase.fetched]
  | testing =>
      cases acted
      have count : (SetServer.busy requests nfd sent (.threaded .testing)).availableCount =
          requests := by
        simp [SetServer.busy, Phase.counted]
      rw [count]
      split_ifs with first
      · rw [toPhase_threaded .testing (.incrementing 1) rfl rfl]
        have granted : perm requests = 1 := if_pos (Or.inl (by exact_mod_cast first))
        rw [← granted]
        exact .busy requests nfd sent _ .incrementing answered
      · rw [toPhase_threaded .testing .doubting rfl rfl]
        exact .busy requests nfd sent _ (.doubting (by exact_mod_cast first)) answered
  | doubting later =>
      cases acted
      have count : (SetServer.busy requests nfd sent (.threaded .doubting)).availableCount =
          requests := by
        simp [SetServer.busy, Phase.counted]
      have decided : (if (requests : ℤ) = 2 then (1 : ℤ) else 0) = perm requests := by
        simp only [perm, later, false_or]
        norm_cast
      rw [count, decided, toPhase_threaded .doubting (.incrementing (perm requests)) rfl rfl]
      exact .busy requests nfd sent _ .incrementing answered
  | incrementing =>
      cases acted
      have count : (SetServer.busy requests nfd sent
          (.threaded (.incrementing (perm requests)))).availableCount = requests := by
        simp [SetServer.busy, Phase.counted]
      rw [count, toPhase_threaded (.incrementing (perm requests))
        (.storing (perm requests) requests) rfl rfl]
      exact .busy requests nfd sent _ .storing answered
  | storing =>
      cases acted
      have same :
          Serial (SetServer.busy requests nfd sent (.threaded (.sending (perm requests)))) :=
        .busy requests nfd sent _ .sending answered
      convert same using 1
      simp [SetServer.toPhase, SetServer.busy, Phase.counted, Phase.fetched]
  | sending =>
      have served : (SetServer.busy requests nfd sent
          (.threaded (.sending (perm requests)))).handover.serves[requests]? =
            some (some requests) := by
        simp [SetServer.busy, Phase.fetched]
      rw [SetServer.act, served] at acted
      cases acted
      have same : Serial (SetServer.busy requests nfd
          (sent ++ [(requests, printNumber permbuffer (perm requests))]) (.threaded .done)) :=
        .busy requests nfd _ _ .done (answered.append (readNumber_perm permbuffer requests))
      convert same using 1
      simp [SetServer.toPhase, SetServer.busy, SetServer.quiet, Phase.counted, Phase.fetched]
  | done => cases acted

/-- The director hears the answer to its last request. -/
theorem Serial.hears (fits : stage.Fits requests)
    (answered : Answered (requests + stage.answered) sent)
    (taken : (SetServer.busy requests nfd sent stage).step .hears = some next) : Serial next := by
  have awaiting : (SetServer.busy requests nfd sent stage).awaiting = true := by
    cases stage <;> rfl
  have asked : (SetServer.busy requests nfd sent stage).asked - 1 = requests := by
    cases stage <;> rfl
  have log : (SetServer.busy requests nfd sent stage).sent = sent := by
    cases stage <;> rfl
  rw [SetServer.step, if_pos awaiting, asked, log, Option.map_eq_some_iff] at taken
  rcases taken with ⟨record, found, rfl⟩
  by_cases finished : stage.answered = 1
  · rw [finished] at answered
    rcases answered.lookup with ⟨answer, same, read⟩
    cases found.symm.trans same
    cases fits <;> try cases finished
    have after : Serial (SetServer.quiet (requests + 1) requests sent) :=
      .quiet _ _ _ answered
    convert after using 1
    simp [SetServer.busy, SetServer.quiet, read, Phase.counted, Phase.fetched, List.range_succ,
      List.replicate_succ']
  · have waits : stage.answered = 0 := by
      cases fits <;> first | rfl | exact absurd rfl finished
    rw [waits] at answered
    cases found.symm.trans answered.lookup_eq_none

theorem Serial.accepts (answered : Answered (requests + stage.answered) sent)
    (taken : (SetServer.busy requests nfd sent stage).step .accepts = some next) :
    Serial next := by
  cases stage with
  | queued =>
      rw [SetServer.step] at taken
      simp only [SetServer.busy, Option.map_eq_some_iff] at taken
      rcases taken with ⟨handover, accepted, rfl⟩
      rcases step_accepts accepted with ⟨_, _, rfl⟩
      exact .busy requests nfd sent .accepted .accepted answered
  | accepted | threaded => cases taken

theorem Serial.creates (answered : Answered (requests + stage.answered) sent)
    (taken : (SetServer.busy requests nfd sent stage).step .creates = some next) :
    Serial next := by
  rw [SetServer.step, Option.map_eq_some_iff] at taken
  rcases taken with ⟨handover, created, rfl⟩
  rcases step_creates created with ⟨accepted, ⟨refused, _⟩ | ⟨_, rfl⟩⟩
  · cases refused
  · cases stage with
    | accepted =>
        have after : Serial (SetServer.busy requests nfd sent (.threaded .starting)) :=
          .busy requests nfd sent _ .starting answered
        convert after using 1
        simp [SetServer.busy, SetServer.quiet, Phase.counted, Phase.fetched]
    | queued | threaded => cases accepted

theorem Serial.step (serial : Serial set) (taken : set.step turn = some next) : Serial next := by
  cases serial with
  | quiet requests nfd sent answered =>
      cases turn with
      | connects =>
          cases taken
          exact .busy requests nfd sent .queued .queued answered
      | hears | accepts | creates => cases taken
      | acts thread permbuffer => cases (acts_quiet rfl).symm.trans taken
  | busy requests nfd sent stage fits answered =>
      cases turn with
      | connects => cases stage <;> cases taken
      | hears => exact Serial.hears fits answered taken
      | accepts => exact Serial.accepts answered taken
      | creates => exact Serial.creates answered taken
      | acts thread permbuffer =>
          cases stage with
          | queued | accepted => cases (acts_quiet rfl).symm.trans taken
          | threaded phase =>
              rcases acts_threaded taken with ⟨rfl, acted⟩
              exact Serial.act fits answered acted

end Steps

def emptyBuffer : Record :=
  Vector.replicate 30 0#8

section Runs

variable {requests nfd : ℕ} {sent : List (ℕ × Record)} {stage : Stage} {set final : SetServer}
  {turns : List Turn}

theorem Answered.eq_range (answered : Answered requests sent) :
    sent.map Prod.fst = List.range sent.length ∧
      sent.map (readNumber ∘ Prod.snd) = (List.range sent.length).map perm := by
  have length := congrArg List.length answered.connections
  rw [List.length_map, List.length_range] at length
  rw [length]
  exact ⟨answered.connections, answered.perms⟩

theorem Serial.answers (serial : Serial set) :
    set.sent.map Prod.fst = List.range set.sent.length ∧
      set.sent.map (readNumber ∘ Prod.snd) = (List.range set.sent.length).map perm := by
  cases serial with
  | quiet requests nfd sent answered => exact answered.eq_range
  | busy requests nfd sent stage fits answered => cases stage <;> exact answered.eq_range

theorem Serial.heard (serial : Serial set) :
    set.heard = (List.range set.heard.length).map perm ∧ set.asked ≤ set.heard.length + 1 := by
  cases serial with
  | quiet => simp [SetServer.quiet]
  | busy requests nfd sent stage => cases stage <;> simp [SetServer.busy, SetServer.quiet]

/-- Somebody can always go on: the director, the main thread or the thread of the last request. -/
theorem Serial.goes_on (serial : Serial set) (permbuffer : Record) (room : set.asked ≤ 5) :
    ∃ turn next, set.step turn = some next := by
  cases serial with
  | quiet => exact ⟨.connects, _, rfl⟩
  | busy requests nfd sent stage fits answered =>
      have phases (phase : Phase) :
          (SetServer.busy requests nfd sent (.threaded phase)).phases[requests]? = some phase := by
        simp [SetServer.busy]
      have acts (phase : Phase)
          (can : ((SetServer.busy requests nfd sent (.threaded phase)).act requests permbuffer
            phase).isSome = true) :
          ∃ turn next, (SetServer.busy requests nfd sent (.threaded phase)).step turn =
            some next := by
        refine ⟨.acts requests permbuffer, Option.isSome_iff_exists.mp ?_⟩
        rw [SetServer.step, phases, Option.bind_some]
        exact can
      cases fits with
      | queued =>
          refine ⟨.accepts, Option.isSome_iff_exists.mp ?_⟩
          simp [SetServer.step, SetServer.busy, SetServer.quiet, Acceptor.step]
      | accepted =>
          refine ⟨.creates, Option.isSome_iff_exists.mp ?_⟩
          have few : requests < 5 := room
          simp [SetServer.step, SetServer.busy, SetServer.quiet, Acceptor.step, Acceptor.refuses,
            SetServer.acceptor, few]
      | starting =>
          apply acts
          simp [SetServer.act, SetServer.busy, Acceptor.step, Phase.fetched]
      | testing | doubting | incrementing | storing => exact acts _ rfl
      | sending =>
          apply acts
          simp [SetServer.act, SetServer.busy, Phase.fetched]
      | done =>
          rcases answered.lookup with ⟨record, found, _⟩
          refine ⟨.hears, Option.isSome_iff_exists.mp ?_⟩
          simp [SetServer.step, SetServer.busy, SetServer.quiet, found]

/-- However the threads of a set are interleaved with each other and with the director, the first
request and the third are granted and no other, each is answered on its own connection, and as long
as the array has room somebody can go on. -/
theorem permissions_in_turn {nfd : ℕ} {turns : List Turn} {final : SetServer}
    (reached : run SetServer.step (.start nfd) turns = some final) :
    final.heard = (List.range final.heard.length).map perm ∧
      final.asked ≤ final.heard.length + 1 ∧
      final.sent.map Prod.fst = List.range final.sent.length ∧
      final.sent.map (readNumber ∘ Prod.snd) = (List.range final.sent.length).map perm ∧
      (final.asked ≤ 5 → ∃ turn next, final.step turn = some next) := by
  have start : Serial (.start nfd) := .quiet 0 nfd [] ⟨rfl, rfl⟩
  have serial := run_invariant Serial start (fun _ _ _ before taken => before.step taken) reached
  exact ⟨serial.heard.1, serial.heard.2, serial.answers.1, serial.answers.2,
    serial.goes_on emptyBuffer⟩

/-- One request from its beginning to its end. -/
def oneRequest : List Turn :=
  [.connects, .accepts, .creates] ++ List.replicate 5 (.acts 0 emptyBuffer) ++ [.hears]

theorem oneRequest_runs : (run SetServer.step (.start 0) oneRequest).isSome = true := by
  decide +kernel

theorem permissions_in_turn_one :
    ∃ final, run SetServer.step (.start 0) oneRequest = some final ∧
      final.heard = (List.range final.heard.length).map perm :=
  ⟨_, (Option.some_get oneRequest_runs).symm,
    (permissions_in_turn (Option.some_get oneRequest_runs).symm).1⟩

end Runs

end NetLab.Studio
