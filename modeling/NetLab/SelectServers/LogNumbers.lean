import NetLab.Systems.Runs
import Mathlib.Data.Finset.Card
import Mathlib.Data.Fintype.Basic
import Mathlib.Data.Int.Interval

/-!
# The numbers of the log fifos

Each server of `select_servers/logserver`, and each client of `select_servers/multiserver`, takes
its number from shared memory by `shm->number=shm->number-1; int logno=shm->number;`. These are a
load, a store and another load, and the processes are not kept from each other.
-/

namespace NetLab.SelectServers

open NetLab.Systems

/-- How far a process has got, with what it has loaded and the number it goes by. -/
inductive Phase where
  | absent
  | loaded (value : ℤ)
  | stored
  | numbered (logno : ℤ)
deriving DecidableEq

/-- Between the first load and the last. -/
def Phase.busy : Phase → Bool
  | .loaded _ | .stored => true
  | _ => false

def Phase.written : Phase → Bool
  | .stored | .numbered _ => true
  | _ => false

/-- The shared number and the processes. Of each process it is remembered whether another one has
stored a number while it was busy. -/
structure Allocation (Process : Type*) where
  number : ℤ
  phase : Process → Phase
  disturbed : Process → Bool

inductive Access (Process : Type*) where
  | loads (process : Process)
  | stores (process : Process)
  | reads (process : Process)

def Allocation.start {Process : Type*} (number : ℤ) : Allocation Process where
  number
  phase _ := .absent
  disturbed _ := false

/-- No two processes go by the same number. -/
def Allocation.Distinct {Process : Type*} (shm : Allocation Process) : Prop :=
  ∀ process other logno, shm.phase process = .numbered logno →
    shm.phase other = .numbered logno → process = other

variable {Process : Type*} [DecidableEq Process]

def Allocation.step (shm : Allocation Process) : Access Process → Option (Allocation Process)
  | .loads process =>
      match shm.phase process with
      | .absent =>
          some { shm with phase := Function.update shm.phase process (.loaded shm.number) }
      | _ => none
  | .stores process =>
      match shm.phase process with
      | .loaded value =>
          some {
            number := value - 1
            phase := Function.update shm.phase process .stored
            disturbed := fun other =>
              shm.disturbed other || decide (other ≠ process) && (shm.phase other).busy }
      | _ => none
  | .reads process =>
      match shm.phase process with
      | .stored =>
          some { shm with phase := Function.update shm.phase process (.numbered shm.number) }
      | _ => none

section Steps

variable {shm next : Allocation Process} {process : Process}

theorem step_loads (taken : shm.step (.loads process) = some next) :
    shm.phase process = .absent ∧
      next = { shm with phase := Function.update shm.phase process (.loaded shm.number) } := by
  rw [Allocation.step] at taken
  split at taken
  case h_1 absent =>
    cases taken
    exact ⟨absent, rfl⟩
  case h_2 => cases taken

theorem step_stores (taken : shm.step (.stores process) = some next) :
    ∃ value, shm.phase process = .loaded value ∧ next.number = value - 1 ∧
      next.phase = Function.update shm.phase process .stored ∧
      ∀ other, next.disturbed other = true ↔
        shm.disturbed other = true ∨ other ≠ process ∧ (shm.phase other).busy = true := by
  rw [Allocation.step] at taken
  split at taken
  case h_1 value loaded =>
    cases taken
    refine ⟨value, loaded, rfl, rfl, ?_⟩
    intro other
    simp only [Bool.or_eq_true, Bool.and_eq_true, decide_eq_true_eq]
  case h_2 => cases taken

theorem step_reads (taken : shm.step (.reads process) = some next) :
    shm.phase process = .stored ∧
      next = { shm with phase := Function.update shm.phase process (.numbered shm.number) } := by
  rw [Allocation.step] at taken
  split at taken
  case h_1 stored =>
    cases taken
    exact ⟨stored, rfl⟩
  case h_2 => cases taken

end Steps

/-! ## Undisturbed processes -/

/-- One process after the other: a number that was loaded is still there, and at most one process
has stored a number and not read it, which nobody else goes by. -/
structure Serial {Process : Type*} (shm : Allocation Process) : Prop where
  loaded : ∀ process value, shm.phase process = .loaded value → value = shm.number
  single : ∀ process other, shm.phase process = .stored → shm.phase other = .stored →
    process = other
  below : ∀ process logno, shm.phase process = .numbered logno → shm.number ≤ logno
  fresh : ∀ process other logno, shm.phase process = .stored →
    shm.phase other = .numbered logno → shm.number < logno
  distinct : shm.Distinct

theorem serial_start {Process : Type*} (number : ℤ) :
    Serial (Allocation.start number : Allocation Process) := by
  constructor
  case loaded | below => exact fun _ _ absent => by cases absent
  case single => exact fun _ _ absent => by cases absent
  case fresh => exact fun _ _ _ absent => by cases absent
  case distinct => exact fun _ _ _ absent => by cases absent

section Serial

variable {shm next : Allocation Process} {process : Process}

/-- Only the process that takes a step gets into another phase. -/
theorem phase_before {phases : Process → Phase} {other : Process} {own phase : Phase}
    (isNot : phase ≠ own) (here : Function.update phases process own other = phase) :
    phases other = phase := by
  rcases eq_or_ne other process with rfl | apart
  · rw [Function.update_self] at here
    exact absurd here.symm isNot
  · rwa [Function.update_of_ne apart] at here

theorem Serial.loads (serial : Serial shm) (taken : shm.step (.loads process) = some next) :
    Serial next := by
  rcases step_loads taken with ⟨absent, rfl⟩
  constructor
  case loaded =>
    intro other value here
    by_cases same : value = shm.number
    · exact same
    · exact serial.loaded other value (phase_before (by simpa using same) here)
  case single =>
    intro one two first second
    exact serial.single one two (phase_before (by simp) first) (phase_before (by simp) second)
  case below =>
    intro other logno here
    exact serial.below other logno (phase_before (by simp) here)
  case fresh =>
    intro one two logno first second
    exact serial.fresh one two logno (phase_before (by simp) first) (phase_before (by simp) second)
  case distinct =>
    intro one two logno first second
    exact serial.distinct one two logno (phase_before (by simp) first) (phase_before (by simp) second)

theorem Serial.stores (serial : Serial shm) (taken : shm.step (.stores process) = some next)
    (quiet : ∀ other, next.disturbed other = false) : Serial next := by
  rcases step_stores taken with ⟨value, loaded, number, phase, disturbed⟩
  have current := serial.loaded process value loaded
  have idle {other : Process} (apart : other ≠ process) : (shm.phase other).busy = false := by
    have free := quiet other
    rw [Bool.eq_false_iff, ne_eq, disturbed, not_or] at free
    simpa [apart] using free.2
  have old {other : Process} (apart : other ≠ process) : next.phase other = shm.phase other := by
    rw [phase, Function.update_of_ne apart]
  have own : next.phase process = .stored := by
    rw [phase, Function.update_self]
  have only {other : Process} (stored : next.phase other = .stored) : other = process := by
    by_contra apart
    have busy := idle apart
    rw [← old apart, stored] at busy
    cases busy
  have numbered {other : Process} {logno : ℤ} (here : next.phase other = .numbered logno) :
      shm.phase other = .numbered logno := by
    rw [phase] at here
    exact phase_before (by simp) here
  constructor
  case loaded =>
    intro other value here
    rcases eq_or_ne other process with rfl | apart
    · cases own.symm.trans here
    · have busy := idle apart
      rw [← old apart, here] at busy
      cases busy
  case single =>
    intro one two first second
    exact (only first).trans (only second).symm
  case below =>
    intro other logno here
    have lower := serial.below other logno (numbered here)
    omega
  case fresh =>
    intro one other logno _ here
    have lower := serial.below other logno (numbered here)
    omega
  case distinct =>
    intro one two logno first second
    exact serial.distinct one two logno (numbered first) (numbered second)

theorem Serial.reads (serial : Serial shm) (taken : shm.step (.reads process) = some next) :
    Serial next := by
  rcases step_reads taken with ⟨stored, rfl⟩
  have either {other : Process} {logno : ℤ}
      (here : Function.update shm.phase process (.numbered shm.number) other = .numbered logno) :
      other = process ∧ logno = shm.number ∨
        shm.phase other = .numbered logno ∧ shm.number < logno := by
    rcases eq_or_ne other process with rfl | apart
    · rw [Function.update_self, Phase.numbered.injEq] at here
      exact Or.inl ⟨rfl, here.symm⟩
    · rw [Function.update_of_ne apart] at here
      exact Or.inr ⟨here, serial.fresh process other logno stored here⟩
  constructor
  case loaded =>
    intro other value here
    exact serial.loaded other value (phase_before (by simp) here)
  case single =>
    intro one two first second
    exact serial.single one two (phase_before (by simp) first) (phase_before (by simp) second)
  case below =>
    intro other logno here
    rcases either here with ⟨_, rfl⟩ | ⟨_, above⟩
    · exact le_rfl
    · exact above.le
  case fresh =>
    intro one other logno first here
    have isStored := phase_before (by simp) first
    rcases serial.single one process isStored stored with rfl
    have isNumbered : Function.update shm.phase one (.numbered shm.number) one = .stored := first
    rw [Function.update_self] at isNumbered
    cases isNumbered
  case distinct =>
    intro one two logno first second
    rcases either first with ⟨rfl, rfl⟩ | ⟨here, above⟩
    · rcases either second with ⟨rfl, _⟩ | ⟨_, above⟩
      · rfl
      · exact absurd above (lt_irrefl _)
    · rcases either second with ⟨_, rfl⟩ | ⟨there, _⟩
      · exact absurd above (lt_irrefl _)
      · exact serial.distinct one two logno here there

end Serial

/-- As long as nobody is disturbed, the processes go one after the other. -/
theorem serial_of_quiet {number : ℤ} {labels : List (Access Process)}
    {final : Allocation Process}
    (reached : run Allocation.step (Allocation.start number) labels = some final)
    (quiet : ∀ process, final.disturbed process = false) : Serial final := by
  refine run_invariant (fun shm => (∀ process, shm.disturbed process = false) → Serial shm)
    (fun _ => serial_start number) ?_ reached quiet
  intro shm label next serial taken quiet
  cases label with
  | loads process =>
      have before : ∀ other, shm.disturbed other = false := by
        rcases step_loads taken with ⟨_, rfl⟩
        exact quiet
      exact (serial before).loads taken
  | stores process =>
      have before : ∀ other, shm.disturbed other = false := by
        rcases step_stores taken with ⟨_, _, _, _, disturbed⟩
        intro other
        have free := quiet other
        rw [Bool.eq_false_iff, ne_eq, disturbed, not_or] at free
        simpa using free.1
      exact (serial before).stores taken quiet
  | reads process =>
      have before : ∀ other, shm.disturbed other = false := by
        rcases step_reads taken with ⟨_, rfl⟩
        exact quiet
      exact (serial before).reads taken

/-! ## Disturbed processes -/

/-- A number that the shared one has passed and that nobody took. -/
def Missed {Process : Type*} (first : ℤ) (shm : Allocation Process) : Prop :=
  ∃ logno, shm.number < logno ∧ logno < first ∧ ∀ process, shm.phase process ≠ .numbered logno

/-- The numbers below `first`, down to `lowest`, against the processes that have stored one. There
are never more numbers than such processes. While there are as many, a process that was disturbed
will store a number that is there already, or some number was passed. -/
structure Account {Process : Type*} (first : ℤ) (shm : Allocation Process)
    (writers : Finset Process) (lowest : ℤ) : Prop where
  mem_writers : ∀ process, process ∈ writers ↔ (shm.phase process).written = true
  loaded : ∀ process value, shm.phase process = .loaded value → lowest ≤ value ∧ value ≤ first
  numbered : ∀ process logno, shm.phase process = .numbered logno →
    lowest ≤ logno ∧ logno < first
  number : lowest ≤ shm.number ∧ shm.number ≤ first
  begun : writers.Nonempty → shm.number < first
  idle : ∀ process, shm.disturbed process = true → shm.phase process ≠ .absent
  enough : first - lowest ≤ writers.card
  tight : first - lowest = writers.card → shm.number = lowest
  cause : first - lowest = writers.card → ∀ process, shm.disturbed process = true →
    (∃ value, shm.phase process = .loaded value ∧ lowest < value) ∨ Missed first shm

theorem account_start {Process : Type*} (first : ℤ) :
    Account first (Allocation.start first : Allocation Process) ∅ first := by
  constructor
  case mem_writers => simp [Allocation.start, Phase.written]
  case loaded | numbered => exact fun _ _ absent => by cases absent
  case number => exact ⟨le_rfl, le_rfl⟩
  case begun => exact fun some => by cases some.ne_empty rfl
  case idle => exact fun _ disturbed => by cases disturbed
  case enough => simp
  case tight => exact fun _ => rfl
  case cause => exact fun _ _ disturbed => by cases disturbed

section Account

variable {first lowest : ℤ} {shm next : Allocation Process} {writers : Finset Process}
  {process : Process}

/-- The processes that have a number of their own are at most as many as the numbers. -/
theorem exists_missed (account : Account first shm writers lowest)
    (tight : first - lowest = writers.card) (stored : shm.phase process = .stored) :
    ∃ logno, lowest ≤ logno ∧ logno < first ∧ ∀ other, shm.phase other ≠ .numbered logno := by
  by_contra all
  push Not at all
  have someone : Nonempty Process := ⟨process⟩
  choose! owner owned using all
  have injective : Set.InjOn owner (Finset.Ico lowest first) := by
    intro one mem two memTwo same
    rw [Finset.coe_Ico, Set.mem_Ico] at mem memTwo
    have both := (owned one mem.1 mem.2).symm.trans (same ▸ owned two memTwo.1 memTwo.2)
    exact Phase.numbered.inj both
  have others : (Finset.Ico lowest first).image owner ⊆ writers.erase process := by
    intro other mem
    rcases Finset.mem_image.mp mem with ⟨logno, bounds, rfl⟩
    rw [Finset.mem_Ico] at bounds
    have isNumbered := owned logno bounds.1 bounds.2
    rw [Finset.mem_erase, account.mem_writers, isNumbered]
    refine ⟨?_, rfl⟩
    rintro same
    rw [same, stored] at isNumbered
    cases isNumbered
  have few := Finset.card_le_card others
  have isWriter : process ∈ writers := by
    rw [account.mem_writers, stored]
    rfl
  have some := Finset.card_pos.mpr ⟨process, isWriter⟩
  rw [Finset.card_image_of_injOn injective, Int.card_Ico, Finset.card_erase_of_mem isWriter] at few
  omega

theorem Account.loads (account : Account first shm writers lowest)
    (taken : shm.step (.loads process) = some next) : Account first next writers lowest := by
  rcases step_loads taken with ⟨absent, rfl⟩
  constructor
  case mem_writers =>
    intro other
    rw [account.mem_writers]
    rcases eq_or_ne other process with rfl | apart
    · simp [absent, Phase.written]
    · simp [Function.update_of_ne apart]
  case loaded =>
    intro other value here
    by_cases same : value = shm.number
    · exact same ▸ account.number
    · exact account.loaded other value (phase_before (by simpa using same) here)
  case numbered => exact fun other logno here => account.numbered other logno (phase_before (by simp) here)
  case number => exact account.number
  case begun => exact account.begun
  case idle => exact fun other disturbed here => account.idle other disturbed (phase_before (by simp) here)
  case enough => exact account.enough
  case tight => exact account.tight
  case cause =>
    intro tight other disturbed
    rcases account.cause tight other disturbed with ⟨value, here, above⟩ | ⟨logno, missed⟩
    · refine Or.inl ⟨value, ?_, above⟩
      have apart : other ≠ process := by
        rintro rfl
        cases here.symm.trans absent
      exact (Function.update_of_ne apart _ _).trans here
    · refine Or.inr ⟨logno, missed.1, missed.2.1, ?_⟩
      exact fun any here => missed.2.2 any (phase_before (by simp) here)

theorem Account.reads (account : Account first shm writers lowest)
    (taken : shm.step (.reads process) = some next) : Account first next writers lowest := by
  rcases step_reads taken with ⟨stored, rfl⟩
  have isWriter : process ∈ writers := by
    rw [account.mem_writers, stored]
    rfl
  constructor
  case mem_writers =>
    intro other
    rw [account.mem_writers]
    rcases eq_or_ne other process with rfl | apart
    · simp [stored, Phase.written]
    · simp [Function.update_of_ne apart]
  case loaded => exact fun other value here => account.loaded other value (phase_before (by simp) here)
  case numbered =>
    intro other logno here
    by_cases same : logno = shm.number
    · exact same ▸ ⟨account.number.1, account.begun ⟨process, isWriter⟩⟩
    · exact account.numbered other logno (phase_before (by simpa using same) here)
  case number => exact account.number
  case begun => exact account.begun
  case idle => exact fun other disturbed here => account.idle other disturbed (phase_before (by simp) here)
  case enough => exact account.enough
  case tight => exact account.tight
  case cause =>
    intro tight other disturbed
    rcases account.cause tight other disturbed with ⟨value, here, above⟩ | ⟨logno, missed⟩
    · refine Or.inl ⟨value, ?_, above⟩
      have apart : other ≠ process := by
        rintro rfl
        cases here.symm.trans stored
      exact (Function.update_of_ne apart _ _).trans here
    · refine Or.inr ⟨logno, missed.1, missed.2.1, ?_⟩
      have passed : logno ≠ shm.number := missed.1.ne'
      exact fun any here => missed.2.2 any (phase_before (by simpa using passed) here)

/-- Storing a number one below the lowest keeps the account tight; storing any other one leaves
more writers than numbers for good. -/
theorem Account.stores (account : Account first shm writers lowest)
    (taken : shm.step (.stores process) = some next) :
    ∃ later, Account first next (insert process writers) later := by
  rcases step_stores taken with ⟨value, loaded, number, phase, disturbed⟩
  have bounds := account.loaded process value loaded
  have fresh : process ∉ writers := by
    rw [account.mem_writers, loaded]
    simp [Phase.written]
  have card := Finset.card_insert_of_notMem fresh
  have enough := account.enough
  have own : next.phase process = .stored := by
    rw [phase, Function.update_self]
  have old {other : Process} (apart : other ≠ process) : next.phase other = shm.phase other := by
    rw [phase, Function.update_of_ne apart]
  have before {other : Process} {earlier : Phase} (isNot : earlier ≠ .stored)
      (here : next.phase other = earlier) : shm.phase other = earlier := by
    rw [phase] at here
    exact phase_before isNot here
  refine ⟨min lowest (value - 1), ?_⟩
  constructor
  case mem_writers =>
    intro other
    rw [Finset.mem_insert, account.mem_writers]
    rcases eq_or_ne other process with rfl | apart
    · simp [own, Phase.written]
    · simp [apart, old apart]
  case loaded =>
    intro other value here
    have range := account.loaded other value (before (by simp) here)
    omega
  case numbered =>
    intro other logno here
    have range := account.numbered other logno (before (by simp) here)
    omega
  case number => omega
  case begun => exact fun _ => by omega
  case idle =>
    intro other isDisturbed here
    have absent := before (by simp) here
    rcases (disturbed other).mp isDisturbed with already | ⟨_, busy⟩
    · exact account.idle other already absent
    · rw [absent] at busy
      cases busy
  case enough => omega
  case tight => omega
  case cause =>
    intro tight other isDisturbed
    have wasTight : first - lowest = writers.card := by omega
    have isLowest : value = lowest := by omega
    have current := account.tight wasTight
    have missed {logno : ℤ} (above : lowest ≤ logno) (below : logno < first)
        (free : ∀ any, shm.phase any ≠ .numbered logno) : Missed first next :=
      ⟨logno, by omega, below, fun any here => free any (before (by simp) here)⟩
    rcases (disturbed other).mp isDisturbed with already | ⟨apart, busy⟩
    · rcases account.cause wasTight other already with ⟨late, here, above⟩ | ⟨logno, passed⟩
      · have apart : other ≠ process := by
          rintro rfl
          have same := Phase.loaded.inj (here.symm.trans loaded)
          omega
        exact Or.inl ⟨late, (old apart).trans here, by omega⟩
      · exact Or.inr (missed (by omega) passed.2.1 passed.2.2)
    · cases here : shm.phase other with
      | absent =>
          rw [here] at busy
          cases busy
      | numbered logno =>
          rw [here] at busy
          cases busy
      | loaded late =>
          have range := account.loaded other late here
          exact Or.inl ⟨late, (old apart).trans here, by omega⟩
      | stored =>
          rcases exists_missed account wasTight here with ⟨logno, above, below, free⟩
          exact Or.inr (missed above below free)

end Account

theorem account_of_run {first : ℤ} {labels : List (Access Process)} {final : Allocation Process}
    (reached : run Allocation.step (Allocation.start first) labels = some final) :
    ∃ writers lowest, Account first final writers lowest := by
  refine run_invariant (fun shm => ∃ writers lowest, Account first shm writers lowest)
    ⟨∅, first, account_start first⟩ ?_ reached
  rintro shm label next ⟨writers, lowest, account⟩ taken
  cases label with
  | loads process => exact ⟨writers, lowest, account.loads taken⟩
  | stores process => exact ⟨insert process writers, account.stores taken⟩
  | reads process => exact ⟨writers, lowest, account.reads taken⟩

omit [DecidableEq Process] in
/-- When everybody who began has a number, and no two the same, nobody was disturbed. -/
theorem Account.quiet {first lowest : ℤ} {shm : Allocation Process} {writers : Finset Process}
    (account : Account first shm writers lowest)
    (done : ∀ process, (shm.phase process).busy = false) (distinct : shm.Distinct)
    (process : Process) : shm.disturbed process = false := by
  rw [Bool.eq_false_iff]
  intro disturbed
  have numbers : ∀ writer ∈ writers, ∃ logno, shm.phase writer = .numbered logno := by
    intro writer mem
    rw [account.mem_writers] at mem
    have quiet := done writer
    cases here : shm.phase writer with
    | numbered logno => exact ⟨logno, rfl⟩
    | absent | loaded | stored => simp [here, Phase.busy, Phase.written] at mem quiet
  choose! logno numbered using numbers
  have injective : Set.InjOn logno writers := by
    intro one mem two memTwo same
    exact distinct one two (logno one) (numbered one mem) (same ▸ numbered two memTwo)
  have within : writers.image logno ⊆ Finset.Ico lowest first := by
    intro value mem
    rcases Finset.mem_image.mp mem with ⟨writer, isWriter, rfl⟩
    exact Finset.mem_Ico.mpr (account.numbered writer _ (numbered writer isWriter))
  have few := Finset.card_le_card within
  rw [Finset.card_image_of_injOn injective, Int.card_Ico] at few
  have enough := account.enough
  have range := account.number
  have tight : first - lowest = writers.card := by omega
  have current := account.tight tight
  rcases account.cause tight process disturbed with ⟨value, here, _⟩ | ⟨skipped, above, below, free⟩
  · have quiet := done process
    rw [here] at quiet
    cases quiet
  · have without : writers.image logno ⊆ (Finset.Ico lowest first).erase skipped := by
      intro value mem
      refine Finset.mem_erase.mpr ⟨?_, within mem⟩
      rintro rfl
      rcases Finset.mem_image.mp mem with ⟨writer, isWriter, rfl⟩
      exact free writer (numbered writer isWriter)
    have fewer := Finset.card_le_card without
    have isThere : skipped ∈ Finset.Ico lowest first := Finset.mem_Ico.mpr ⟨by omega, below⟩
    rw [Finset.card_image_of_injOn injective, Finset.card_erase_of_mem isThere,
      Int.card_Ico] at fewer
    omega

/-- Once everybody who began has a number, no two have the same one exactly when nobody had
another process store a number between its first load and its last. -/
theorem numbers_distinct_iff {first : ℤ} {labels : List (Access Process)}
    {final : Allocation Process}
    (reached : run Allocation.step (Allocation.start first) labels = some final)
    (done : ∀ process, (final.phase process).busy = false) :
    final.Distinct ↔ ∀ process, final.disturbed process = false := by
  constructor
  case mp =>
    intro distinct process
    rcases account_of_run reached with ⟨writers, lowest, account⟩
    exact account.quiet done distinct process
  case mpr => exact fun quiet => (serial_of_quiet reached quiet).distinct

/-- Two processes that load the number before either stores one. -/
def bothLoad : List (Access Bool) :=
  [.loads false, .loads true, .stores false, .reads false, .stores true, .reads true]

theorem bothLoad_runs : (run Allocation.step (Allocation.start 10) bothLoad).isSome = true := by
  decide

theorem numbers_distinct_bothLoad :
    ∃ final, run Allocation.step (Allocation.start 10) bothLoad = some final ∧
      ¬ final.Distinct := by
  have apart := numbers_distinct_iff (Option.some_get bothLoad_runs).symm (by decide)
  refine ⟨_, (Option.some_get bothLoad_runs).symm, ?_⟩
  rw [apart]
  decide

end NetLab.SelectServers
