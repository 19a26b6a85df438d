import NetLab.Nfs.Client

/-!
# Single requests

How far the handlers reach into the buffers of the wire format, what a write
request leaves behind when one of its calls fails, and which read requests the
client reports as errors. Each is settled for every file system, every request
and every outcome of the system calls.
-/

namespace NetLab.Nfs

open NetLab.Posix

section Buffers

variable {answers : Answers} {above : List Byte} {machine : Machine}

/-- A write request for which at most 1024 bytes can be moved, or that is refused before. -/
def WriteFits (answers : Answers) (above : List Byte) (argp : FileArgsW) (machine : Machine) :
    Prop :=
  argp.size.toNat ≤ 1024 ∨ checked answers (argp.path above) machine = none ∨
    answers.opens = false ∨ ∀ limit, answers.transfer = some limit → limit ≤ 1024

/-- A read request for which at most 1024 bytes can be moved, or that is refused before. -/
def ReadFits (answers : Answers) (argp : FileArgsR) (machine : Machine) : Prop :=
  argp.size.toNat ≤ 1024 ∨ answers.opens = false ∨ answers.seeks = false ∨
    (∀ limit, answers.transfer = some limit → limit ≤ 1024) ∨
    ∀ inode, checked answers argp.path machine = some inode →
      (machine.files.bytes inode).length - argp.offset.toNat ≤ 1024

theorem taken_inside_iff (argp : FileArgsW) :
    (∀ index ∈ (nfsWrite1Svc answers above argp machine).taken, index < 1024) ↔
      WriteFits answers above argp machine := by
  rcases refused_or_passed answers (argp.path above) machine with
    refused | ⟨inode, limit, passed, opens, transfer⟩
  · have ⟨_, taken, _⟩ := nfsWrite1Svc_refused refused
    have fits : WriteFits answers above argp machine := by
      rcases refused with failed | closed | failed
      · exact .inr (.inl failed)
      · exact .inr (.inr (.inl closed))
      · exact .inr (.inr (.inr (by simp [failed])))
    simp [taken, fits]
  · have ⟨_, taken, _⟩ := nfsWrite1Svc_written passed opens transfer
    rw [taken, range_inside_iff, transferred_le_iff (by decide)]
    simp [WriteFits, passed, opens, transfer]

theorem stored_inside_iff (argp : FileArgsR) (result : Bufnode) :
    (∀ index ∈ (nfsRead1Svc answers argp result machine).stored, index < 1024) ↔
      ReadFits answers argp machine := by
  rw [(nfsRead1Svc_spec answers argp result machine).2.1, range_inside_iff]
  cases checks : checked answers argp.path machine with
  | none => simp [readable, ReadFits, checks]
  | some inode =>
      cases opens : answers.opens with
      | false => simp [readable, ReadFits, opens]
      | true =>
          cases seeks : answers.seeks with
          | false => simp [readable, ReadFits, seeks]
          | true =>
              cases transfer : answers.transfer with
              | none => simp [readable, ReadFits, transfer]
              | some limit =>
                  have small : 1024 < transferCap := by decide
                  simp [readable, ReadFits, checks, opens, seeks, transfer, length_slice,
                    transferred_le_iff small, or_assoc]

/-- The handlers stay inside the 1024 bytes of their buffers exactly for the requests that move no
more than that. -/
theorem buffers_respected_iff (writeAnswers readAnswers : Answers) (above : List Byte)
    (writeArgp : FileArgsW) (readArgp : FileArgsR) (result : Bufnode) (machine : Machine) :
    ((∀ index ∈ (nfsWrite1Svc writeAnswers above writeArgp machine).taken, index < 1024) ↔
      WriteFits writeAnswers above writeArgp machine) ∧
    ((∀ index ∈ (nfsRead1Svc readAnswers readArgp result machine).stored, index < 1024) ↔
      ReadFits readAnswers readArgp machine) :=
  ⟨taken_inside_iff writeArgp, stored_inside_iff readArgp result⟩

end Buffers

section Samples

/-- A file system whose only file is regular, readable and writable. -/
def oneFile (bytes : List Byte) : Machine where
  files := { resolve := fun _ _ => some 0, mode := fun _ => 0x81B6#32, bytes := fun _ => bytes }
  cwd := 0
  descriptors := []

/-- Every call succeeds, and a transfer moves up to 4096 bytes. -/
def granted : Answers where
  accessible := true
  opens := true
  seeks := true
  transfer := some 4096

def readRequest (offset size : BitVec 32) : FileArgsR where
  filename := Vector.replicate 128 0#8
  offset
  size

def writeRequest (offset size : BitVec 32) : FileArgsW where
  filename := Vector.replicate 128 0#8
  offset
  buffer := Vector.replicate 1024 0#8
  size

theorem checked_oneFile {answers : Answers} (accessible : answers.accessible = true) (path : Path)
    (bytes : List Byte) : checked answers path (oneFile bytes) = some 0 :=
  checked_eq_some.mpr ⟨accessible, rfl, (by decide : isRegular 0x81B6#32 = true)⟩

end Samples

/-- A request for 2000 bytes takes bytes behind a write buffer and stores bytes behind a read
buffer. -/
theorem buffers_exceeded :
    ¬ (∀ index ∈ (nfsWrite1Svc granted [] (writeRequest 0#32 2000#32) (oneFile [])).taken,
      index < 1024) ∧
    ¬ (∀ index ∈ (nfsRead1Svc granted (readRequest 0#32 2000#32) Bufnode.initial
      (oneFile (List.replicate 2000 65#8))).stored, index < 1024) := by
  rw [taken_inside_iff, stored_inside_iff]
  constructor
  · rintro (short | failed | closed | limited)
    · exact absurd short (by decide)
    · cases (checked_oneFile rfl _ []).symm.trans failed
    · cases closed
    · exact absurd (limited 4096 rfl) (by decide)
  · rintro (short | closed | lost | limited | ended)
    · exact absurd short (by decide)
    · cases closed
    · cases lost
    · exact absurd (limited 4096 rfl) (by decide)
    · have remaining := ended 0 (checked_oneFile rfl _ _)
      simp only [oneFile, readRequest, List.length_replicate] at remaining
      exact absurd remaining (by decide)

section FailedWrite

variable {answers : Answers} {above : List Byte} {argp : FileArgsW} {machine : Machine}

/-- A failure of `open`, `lseek` or `write` is answered with -1 and leaves every file alone. -/
def FailsCleanly (answers : Answers) (above : List Byte) (argp : FileArgsW) (machine : Machine) :
    Prop :=
  answers.opens = false ∨ answers.seeks = false ∨ answers.transfer = none →
    (nfsWrite1Svc answers above argp machine).result = -1 ∧
      (nfsWrite1Svc answers above argp machine).machine.files = machine.files

def OnlySeekFails (answers : Answers) (above : List Byte) (argp : FileArgsW) (machine : Machine) :
    Prop :=
  checked answers (argp.path above) machine ≠ none ∧ answers.opens = true ∧
    answers.seeks = false ∧ answers.transfer ≠ none

/-- The handler goes on after a failed `lseek`, and nowhere else. -/
theorem failsCleanly_iff : FailsCleanly answers above argp machine ↔
    ¬ OnlySeekFails answers above argp machine := by
  rcases refused_or_passed answers (argp.path above) machine with
    refused | ⟨inode, limit, passed, opens, transfer⟩
  · have ⟨result, _, files⟩ := nfsWrite1Svc_refused refused
    have clean : FailsCleanly answers above argp machine := fun _ => ⟨result, files⟩
    have other : ¬ OnlySeekFails answers above argp machine := by
      rintro ⟨passed, opens, _, transfer⟩
      rcases refused with failed | closed | failed
      · exact passed failed
      · cases opens.symm.trans closed
      · exact transfer failed
    simp only [clean, other, not_false_eq_true]
  · have ⟨result, _, _⟩ := nfsWrite1Svc_written passed opens transfer
    have answered : ((transferred limit argp.size.toNat : ℕ) : ℤ) ≠ -1 := by omega
    simp [FailsCleanly, OnlySeekFails, passed, opens, transfer, result, answered]

/-- With a failing `lseek`, one byte is written to the beginning of the file and reported. -/
theorem failed_seek_overwrites :
    (nfsWrite1Svc { granted with seeks := false } [] (writeRequest 0x80000000#32 1#32)
      (oneFile [65#8, 66#8])).result = 1 ∧
    (nfsWrite1Svc { granted with seeks := false } [] (writeRequest 0x80000000#32 1#32)
      (oneFile [65#8, 66#8])).machine.files.bytes 0 = [0#8, 66#8] ∧
    ¬ FailsCleanly { granted with seeks := false } [] (writeRequest 0x80000000#32 1#32)
      (oneFile [65#8, 66#8]) := by
  have passed : checked { granted with seeks := false }
      ((writeRequest 0x80000000#32 1#32).path []) (oneFile [65#8, 66#8]) = some 0 :=
    checked_oneFile rfl _ _
  have ⟨result, _, files⟩ := nfsWrite1Svc_written passed rfl rfl
  refine ⟨result, ?_, ?_⟩
  · rw [files]
    rfl
  · intro clean
    cases result.symm.trans (clean (.inr (.inl rfl))).1

end FailedWrite

section ReadError

variable {answers : Answers} {argp : FileArgsR} {machine : Machine}

def CanRead (answers : Answers) (argp : FileArgsR) (machine : Machine) : Prop :=
  checked answers argp.path machine ≠ none ∧ answers.opens = true ∧ answers.seeks = true ∧
    answers.transfer ≠ none

/-- The client takes the error branch if and only if the server could not read, and otherwise
prints the number of bytes read. -/
def ReportsReadError (answers : Answers) (argp : FileArgsR) (result : Bufnode) (machine : Machine)
    (behind : List Byte) : Prop :=
  let outcome := nfsRead1Svc answers argp result machine
  let report := nfsRemote1Read behind (some outcome.result)
  (report = .fileReadingError ↔ ¬ CanRead answers argp machine) ∧
    (CanRead answers argp machine → ∃ text, report = .bytesRead outcome.stored.length text)

theorem readable_length_le (data : List Byte) (found : readable answers argp machine = some data) :
    data.length ≤ transferCap := by
  simp only [readable] at found
  split at found
  · cases found
    exact (length_slice_le _ _ _).trans (transferred_le_cap _ _)
  · cases found

theorem canRead_iff : CanRead answers argp machine ↔
    ∃ data, readable answers argp machine = some data := by
  constructor
  · simp only [CanRead, Option.ne_none_iff_exists']
    rintro ⟨⟨inode, passed⟩, opens, seeks, limit, transfer⟩
    exact ⟨_, by simp only [readable, passed, opens, seeks, transfer]; rfl⟩
  · rintro ⟨data, found⟩
    simp only [readable] at found
    split at found
    case h_1 passed opens seeks transfer => simp [CanRead, passed, opens, seeks, transfer]
    case h_2 => cases found

theorem toInt_size_readInto (result : Bufnode) {data : List Byte}
    (small : data.length ≤ transferCap) :
    (result.readInto (some data)).size.toInt = data.length := by
  have bound : transferCap < 2 ^ 31 := by decide
  simp only [Bufnode.readInto, returned, BitVec.toInt_ofInt]
  apply Int.bmod_eq_of_le
  · omega
  · omega

/-- The client takes every reply for a success, so it reports correctly just what could be read. -/
theorem reportsReadError_iff (result : Bufnode) (behind : List Byte) :
    ReportsReadError answers argp result machine behind ↔ CanRead answers argp machine := by
  have ⟨replied, stored, _⟩ := nfsRead1Svc_spec answers argp result machine
  simp only [ReportsReadError, nfsRemote1Read_some, reduceCtorEq, false_iff, not_not]
  constructor
  · exact fun reports => reports.1
  · intro able
    rcases canRead_iff.mp able with ⟨data, found⟩
    have count := toInt_size_readInto result (readable_length_le data found)
    simp only [able, replied, stored, found, count, Option.getD_some, List.length_range,
      true_and, forall_const, ReadReport.bytesRead.injEq, exists_eq']

/-- A read request that `access` refuses is printed as a read of -1 bytes. -/
theorem denied_read_unreported :
    nfsRemote1Read [] (some (nfsRead1Svc { granted with accessible := false }
      (readRequest 0#32 10#32) Bufnode.initial (oneFile [])).result) = .bytesRead (-1) [] ∧
    ¬ ReportsReadError { granted with accessible := false } (readRequest 0#32 10#32)
      Bufnode.initial (oneFile []) [] := by
  have refused : readable { granted with accessible := false } (readRequest 0#32 10#32)
      (oneFile []) = none := rfl
  constructor
  · rw [nfsRemote1Read_some, (nfsRead1Svc_spec _ _ Bufnode.initial _).1, refused]
    have cleared : Bufnode.initial.buffer.toList = 0#8 :: List.replicate 1023 0#8 :=
      Vector.toList_replicate
    simp only [Bufnode.readInto, Option.getD_none, storePrefix_nil, cleared, List.cons_append,
      cString_zero_cons]
    rfl
  · rintro ⟨noticed, _⟩
    rw [nfsRemote1Read_some] at noticed
    cases noticed.mpr fun able => able.1 rfl

end ReadError

end NetLab.Nfs
