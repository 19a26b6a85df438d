import NetLab.Imperative.Loop
import NetLab.Posix.Text
import Mathlib.Data.List.Pairwise

/-!
# The station of the exam

`exam/4/sm.c` polls the fifos of three trains. For a train that is ready it looks for
an available platform, announces the train to the platforms, and writes the name of
the platform into the fifo of the train (`exam/4/t.c`), which goes there. The table
of available platforms is filled when the station starts and is not written again.
-/

namespace NetLab.Exam

open NetLab.Imperative NetLab.Posix

/-- What the station writes: the announcement of a train to a platform, or the platform for a
train. Trains and platforms are counted from 0 here and from 1 in the texts. -/
inductive Message where
  | coming (train platform : ℕ)
  | allotted (train platform : ℕ)
deriving DecidableEq

def trainFifo (train : ℕ) : List Byte :=
  literal "train" ++ decimal (train + 1)

def Message.fifo : Message → List Byte
  | coming _ platform => literal "platbrod" ++ decimal (platform + 1)
  | allotted train _ => trainFifo train

/-- The string at the beginning of the 15 bytes that are written. -/
def Message.text : Message → List Byte
  | coming _ _ => literal "train coming"
  | allotted _ platform => literal "plat" ++ decimal (platform + 1)

structure Station where
  platAvailable : ℕ → ℤ
  written : List Message

def Station.start (memory : ℕ → ℤ) : Station where
  platAvailable := forUp 0 3 (fun i current => Function.update current i 1) memory
  written := []

/-- A return of `poll`: the events of each train, and what `open` returns for a fifo that is opened
while a train is served. -/
structure Report where
  revents : ℕ → BitVec 16
  opened : ℕ → List Byte → ℤ

/-- `POLLRDNORM`. -/
def pollRdNorm : BitVec 16 :=
  0x40#16

def Report.ready (report : Report) (train : ℕ) : Prop :=
  pollRdNorm &&& report.revents train ≠ 0#16

instance (report : Report) (train : ℕ) : Decidable (report.ready train) :=
  inferInstanceAs (Decidable (_ ≠ _))

/-- A message that is written to the fifo of its receiver, if this could be opened. -/
def Station.write (report : Report) (train : ℕ) (message : Message) (station : Station) : Station :=
  if report.opened train message.fifo < 0 then station
  else { station with written := station.written ++ [message] }

/-- `broadcast_plat`. -/
def Station.broadcastPlat (report : Report) (train : ℕ) (station : Station) : Station :=
  forUp 0 3 (fun platform => Station.write report train (.coming train platform)) station

/-- The first platform that the table has as available. -/
def Station.availablePlatform (station : Station) : Option ℕ :=
  (List.range 3).find? fun j => station.platAvailable j = 1

/-- The body of the loop over the trains. What is read from the fifo is not looked at. -/
def Station.serve (report : Report) (train : ℕ) (station : Station) : Station :=
  if report.ready train then
    match station.availablePlatform with
    | some platform =>
        (station.broadcastPlat report train).write report train (.allotted train platform)
    | none => station
  else station

def Station.poll (station : Station) (report : Report) : Station :=
  forUp 0 3 (Station.serve report) station

structure Told where
  train : ℕ
  platform : ℕ
deriving DecidableEq

def Message.told : Message → Option Told
  | coming _ _ => none
  | allotted train platform => some { train, platform }

/-- The trains that were told a platform, in the order in which this happened. -/
def Station.told (station : Station) : List Told :=
  station.written.filterMap Message.told

/-- The platform that a train reads out of what it was told. -/
def plat (buffer : List Byte) : ℤ :=
  (buffer.getD 4 0#8).toNat - 0x30

/-- A train is told a platform, and no other train is told the same one after that. -/
def Exclusive (told : List Told) : Prop :=
  told.Pairwise fun earlier later =>
    earlier.platform = later.platform → earlier.train = later.train

instance (told : List Told) : Decidable (Exclusive told) :=
  inferInstanceAs (Decidable (List.Pairwise _ told))

/-- A train that is ready and whose fifo can be opened. -/
def Report.Answerable (report : Report) (train : ℕ) : Prop :=
  report.ready train ∧ 0 ≤ report.opened train (trainFifo train)

instance (report : Report) (train : ℕ) : Decidable (report.Answerable train) :=
  inferInstanceAs (Decidable (_ ∧ _))

/-- The trains that are answered, in the order in which the station comes to them. -/
def answered (reports : List Report) : List ℕ :=
  reports.flatMap fun report => (List.range 3).filter fun train => report.Answerable train

section Station

variable {station : Station} {report : Report} {train : ℕ} {message : Message}

/-- The train reads the number of the platform that the station has written. -/
theorem plat_allotted {platform : ℕ} (inside : platform < 3) :
    plat (Message.allotted train platform).text = platform + 1 := by
  have platforms : platform = 0 ∨ platform = 1 ∨ platform = 2 := by omega
  rcases platforms with rfl | rfl | rfl <;> rfl

@[simp]
theorem platAvailable_write :
    (station.write report train message).platAvailable = station.platAvailable := by
  rw [Station.write]
  split <;> rfl

theorem told_write :
    (station.write report train message).told =
      station.told ++ if 0 ≤ report.opened train message.fifo then message.told.toList else [] := by
  rw [Station.write]
  split
  case isTrue failed => simp [not_le.mpr failed]
  case isFalse opened =>
    rw [if_pos (not_lt.mp opened)]
    simp only [Station.told, List.filterMap_append]
    rfl

theorem broadcastPlat_eq (report : Report) (train : ℕ) (station : Station) :
    (station.broadcastPlat report train).platAvailable = station.platAvailable ∧
      (station.broadcastPlat report train).told = station.told := by
  apply forUp_induction (fun _ (current : Station) =>
    current.platAvailable = station.platAvailable ∧ current.told = station.told) (Nat.zero_le 3)
  · exact ⟨rfl, rfl⟩
  · rintro platform current _ _ ⟨table, told⟩
    refine ⟨by rw [platAvailable_write, table], ?_⟩
    rw [told_write, told]
    split <;> simp [Message.told]

def Station.FirstFree (station : Station) : Prop :=
  station.platAvailable 0 = 1

theorem start_firstFree (memory : ℕ → ℤ) : (Station.start memory).FirstFree := by
  simp [Station.FirstFree, Station.start, forUp_fill]

theorem availablePlatform_eq (free : station.FirstFree) : station.availablePlatform = some 0 := by
  rw [Station.availablePlatform, List.range_succ_eq_map]
  exact List.find?_cons_of_pos (decide_eq_true free)

/-- An answered train is told the first platform, and the platform remains available. -/
theorem serve_spec (free : station.FirstFree) (report : Report) (train : ℕ) :
    (station.serve report train).FirstFree ∧
      (station.serve report train).told =
        station.told ++ if report.Answerable train then [Told.mk train 0] else [] := by
  rw [Station.serve]
  split
  case isTrue ready =>
    have ⟨table, told⟩ := broadcastPlat_eq report train station
    rw [availablePlatform_eq free]
    refine ⟨?_, ?_⟩
    · simpa only [Station.FirstFree, platAvailable_write, table] using free
    · rw [told_write, told]
      congr 1
      apply if_congr _ rfl rfl
      exact ⟨fun opened => ⟨ready, opened⟩, fun answerable => answerable.2⟩
  case isFalse idle =>
    refine ⟨free, ?_⟩
    rw [if_neg fun answerable => idle answerable.1, List.append_nil]

theorem poll_spec (free : station.FirstFree) (report : Report) :
    (station.poll report).FirstFree ∧
      (station.poll report).told = station.told ++
        ((List.range 3).filter fun train => report.Answerable train).map (Told.mk · 0) := by
  apply forUp_induction (fun bound (current : Station) =>
    current.FirstFree ∧ current.told = station.told ++
      ((List.range bound).filter fun train => report.Answerable train).map (Told.mk · 0))
    (Nat.zero_le 3)
  · exact ⟨free, (List.append_nil _).symm⟩
  · rintro train current _ _ ⟨current_free, told⟩
    have ⟨next_free, more⟩ := serve_spec current_free report train
    refine ⟨next_free, ?_⟩
    rw [more, told, List.append_assoc, List.range_succ, List.filter_append, List.map_append]
    congr 2
    by_cases answerable : report.Answerable train <;> simp [answerable]

theorem answered_cons (report : Report) (reports : List Report) :
    answered (report :: reports) =
      (List.range 3).filter (fun train => report.Answerable train) ++ answered reports :=
  rfl

/-- Every train that is answered is told the first platform. -/
theorem told_run (free : station.FirstFree) (reports : List Report) :
    (reports.foldl Station.poll station).told =
      station.told ++ (answered reports).map (Told.mk · 0) := by
  induction reports generalizing station with
  | nil => exact (List.append_nil _).symm
  | cons report reports ih =>
      have ⟨next_free, told⟩ := poll_spec free report
      rw [List.foldl_cons, ih next_free, told, answered_cons, List.map_append, List.append_assoc]

theorem mem_answered {reports : List Report} :
    train ∈ answered reports ↔ ∃ report ∈ reports, train < 3 ∧ report.Answerable train := by
  simp only [answered, List.mem_flatMap, List.mem_filter, List.mem_range, decide_eq_true_eq]

/-- On one platform, exclusion leaves room for one train. -/
theorem exclusive_map_iff {trains : List ℕ} (platform : ℕ) :
    Exclusive (trains.map (Told.mk · platform)) ↔
      ∃ only, ∀ train ∈ trains, train = only := by
  simp only [Exclusive, List.pairwise_map, true_imp_iff]
  constructor
  · intro same
    cases trains with
    | nil => exact ⟨0, by simp⟩
    | cons first trains =>
        refine ⟨first, List.forall_mem_cons.mpr ⟨rfl, ?_⟩⟩
        intro train later
        exact ((List.pairwise_cons.mp same).1 train later).symm
  · rintro ⟨only, all⟩
    apply List.pairwise_of_forall_mem_list
    intro earlier earlier_mem later later_mem
    rw [all earlier earlier_mem, all later later_mem]

end Station

/-- In a run of the station, no two trains are told the same platform exactly if one train at most
is answered in the whole run. -/
theorem told_exclusive_iff (memory : ℕ → ℤ) (reports : List Report) :
    Exclusive (reports.foldl Station.poll (Station.start memory)).told ↔
      ∃ only, ∀ report ∈ reports, ∀ train < 3, report.Answerable train → train = only := by
  rw [told_run (start_firstFree memory)]
  change Exclusive ([] ++ _) ↔ _
  rw [List.nil_append, exclusive_map_iff]
  simp only [mem_answered]
  constructor
  · rintro ⟨only, all⟩
    exact ⟨only, fun report among train inside answerable =>
      all train ⟨report, among, inside, answerable⟩⟩
  · rintro ⟨only, all⟩
    refine ⟨only, ?_⟩
    rintro train ⟨report, among, inside, answerable⟩
    exact all report among train inside answerable

/-- A return of `poll` after which this train alone is ready. -/
def readyTrain (ready : ℕ) : Report where
  revents train := if train = ready then pollRdNorm else 0#16
  opened _ _ := 9

/-- The second train is sent to the platform of the first one. -/
theorem platform_told_twice :
    ([readyTrain 0, readyTrain 1].foldl Station.poll (Station.start fun _ => 0)).told =
        [{ train := 0, platform := 0 }, { train := 1, platform := 0 }] ∧
      ¬ Exclusive
        ([readyTrain 0, readyTrain 1].foldl Station.poll (Station.start fun _ => 0)).told := by
  have told : ([readyTrain 0, readyTrain 1].foldl Station.poll (Station.start fun _ => 0)).told =
      [{ train := 0, platform := 0 }, { train := 1, platform := 0 }] :=
    told_run (start_firstFree fun _ => 0) [readyTrain 0, readyTrain 1]
  rw [told]
  exact ⟨rfl, by decide⟩

end NetLab.Exam
