import NetLab.Posix.Files

/-!
# The read and write handlers of `nfs_server.c`

The records are those of `nfs.x`. A decoded argument lies in memory with its
fields one after the other, and neither the name nor the number of bytes is
checked against its field: a name without terminator runs on into the next
fields, and a transfer longer than `buffer` runs over its end. The handlers
report which bytes of the buffer, counted from its first, a transfer touched.

`Answers` holds what the operating system answers to the calls of a request.
The line that a handler logs is left out.
-/

namespace NetLab.Nfs

open NetLab.Posix

structure Bufnode where
  buffer : Vector Byte 1024
  size : BitVec 32

/-- The zeros a `static bufnode` starts with. -/
def Bufnode.initial : Bufnode where
  buffer := Vector.replicate 1024 0#8
  size := 0#32

structure FileArgsR where
  filename : Vector Byte 128
  offset : BitVec 32
  size : BitVec 32

structure FileArgsW where
  filename : Vector Byte 128
  offset : BitVec 32
  buffer : Vector Byte 1024
  size : BitVec 32

/-- The `char *` that `filename` decays to. Zeros follow the argument: it is shorter than the
union it was decoded into, which was cleared first. -/
def FileArgsR.path (argp : FileArgsR) : Path :=
  cString (argp.filename.toList ++ littleEndian argp.offset ++ littleEndian argp.size)

/-- The memory from `buffer` on. The bytes `above` the argument belong to the stack. -/
def FileArgsW.fromBuffer (argp : FileArgsW) (above : List Byte) : List Byte :=
  argp.buffer.toList ++ littleEndian argp.size ++ above

def FileArgsW.memory (argp : FileArgsW) (above : List Byte) (index : ℕ) : Byte :=
  (argp.fromBuffer above).getD index 0#8

/-- The `char *` that `filename` decays to. -/
def FileArgsW.path (argp : FileArgsW) (above : List Byte) : Path :=
  cString (argp.filename.toList ++ littleEndian argp.offset ++ argp.fromBuffer above)

/-- The outcome of each call that a handler makes: whether `access`, `open` and `lseek` succeed,
and how many bytes `read` or `write` can move, if it does not fail. -/
structure Answers where
  accessible : Bool
  opens : Bool
  seeks : Bool
  transfer : Option ℕ

structure WriteOutcome where
  result : ℤ
  taken : List ℕ
  machine : Machine

def nfsWrite1Svc (answers : Answers) (above : List Byte) (argp : FileArgsW) (machine : Machine) :
    WriteOutcome :=
  if machine.access answers.accessible (argp.path above) < 0 then
    { result := -1, taken := [], machine }
  else
    let mode := machine.stMode (argp.path above)
    if mode ≠ 0#32 ∧ isRegular mode then
      let (fd, machine) := machine.openFile answers.opens (argp.path above) .writeOnly
      -- The -1 assigned to `result` when `lseek` fails is overwritten by the next statement.
      let (_, machine) := machine.lseek answers.seeks fd argp.offset.toNat
      let (moved, machine) :=
        machine.write answers.transfer fd (argp.memory above) argp.size.toNat
      { result := returned moved, taken := moved.getD [], machine := machine.close fd }
    else { result := -1, taken := [], machine }

structure ReadOutcome where
  result : Bufnode
  stored : List ℕ
  machine : Machine

def Bufnode.failed (result : Bufnode) : Bufnode :=
  { result with size := BitVec.ofInt 32 (-1) }

/-- `result.size = read(fd, result.buffer, ..)`, for what `read` stored. -/
def Bufnode.readInto (result : Bufnode) (moved : Option (List Byte)) : Bufnode where
  buffer := storePrefix (moved.getD []) result.buffer
  size := BitVec.ofInt 32 (returned moved)

/-- `nfs_read_1_svc`, with the `static` result as the last request has left it. -/
def nfsRead1Svc (answers : Answers) (argp : FileArgsR) (result : Bufnode) (machine : Machine) :
    ReadOutcome :=
  if machine.access answers.accessible argp.path < 0 then
    { result := result.failed, stored := [], machine }
  else
    let mode := machine.stMode argp.path
    if mode ≠ 0#32 ∧ isRegular mode then
      let (fd, machine) := machine.openFile answers.opens argp.path .readOnly
      let (position, machine) := machine.lseek answers.seeks fd argp.offset.toNat
      -- This return leaves `fd` open.
      if position < 0 then { result := result.failed, stored := [], machine }
      else
        let (moved, machine) := machine.read answers.transfer fd argp.size.toNat
        { result := result.readInto moved,
          stored := List.range (moved.getD []).length,
          machine := machine.close fd }
    else { result := result.failed, stored := [], machine }

section Checks

variable {answers : Answers} {path : Path} {machine : Machine} {inode : ℕ}

/-- The inode of a path that passes the checks both handlers begin with: `access` finds it and it
is a regular file. -/
def checked (answers : Answers) (path : Path) (machine : Machine) : Option ℕ :=
  if answers.accessible then
    (machine.inodeAt path).filter fun inode => isRegular (machine.files.mode inode)
  else none

theorem checked_eq_some :
    checked answers path machine = some inode ↔ answers.accessible = true ∧
      machine.inodeAt path = some inode ∧ isRegular (machine.files.mode inode) = true := by
  simp [checked, Option.filter_eq_some_iff]

theorem checks_pass (passed : checked answers path machine = some inode) :
    ¬ machine.access answers.accessible path < 0 ∧
      machine.stMode path ≠ 0#32 ∧ isRegular (machine.stMode path) = true := by
  rcases checked_eq_some.mp passed with ⟨accessible, found, regular⟩
  simp [Machine.access, Machine.stMode, accessible, found, regular, ne_zero_of_isRegular regular]

theorem checks_fail (failed : checked answers path machine = none)
    (accessed : ¬ machine.access answers.accessible path < 0) :
    ¬ (machine.stMode path ≠ 0#32 ∧ isRegular (machine.stMode path) = true) := by
  rintro ⟨_, regular⟩
  cases found : machine.inodeAt path with
  | none => simp [Machine.access, found] at accessed
  | some inode =>
      have accessible : answers.accessible = true := by
        by_contra denied
        simp [Machine.access, denied] at accessed
      rw [Machine.stMode, found] at regular
      have passed := checked_eq_some.mpr ⟨accessible, found, regular⟩
      simp [failed] at passed

theorem checked_congr {other : Machine} (cwd : other.cwd = machine.cwd)
    (resolve : other.files.resolve = machine.files.resolve)
    (mode : other.files.mode = machine.files.mode) :
    checked answers path other = checked answers path machine := by
  simp only [checked, Machine.inodeAt, cwd, resolve, mode]

/-- A request that is refused moves nothing; any other one goes through. -/
theorem refused_or_passed (answers : Answers) (path : Path) (machine : Machine) :
    (checked answers path machine = none ∨ answers.opens = false ∨ answers.transfer = none) ∨
      ∃ inode limit, checked answers path machine = some inode ∧ answers.opens = true ∧
        answers.transfer = some limit := by
  by_cases refused : checked answers path machine = none ∨ answers.opens = false ∨
      answers.transfer = none
  · exact Or.inl refused
  · right
    simp only [not_or, Bool.not_eq_false, ← ne_eq, Option.ne_none_iff_exists'] at refused
    rcases refused with ⟨⟨inode, passed⟩, opens, ⟨limit, transfer⟩⟩
    exact ⟨inode, limit, passed, opens, transfer⟩

end Checks

section Write

variable {answers : Answers} {above : List Byte} {argp : FileArgsW} {machine : Machine}

theorem nfsWrite1Svc_refused
    (refused : checked answers (argp.path above) machine = none ∨ answers.opens = false ∨
      answers.transfer = none) :
    (nfsWrite1Svc answers above argp machine).result = -1 ∧
      (nfsWrite1Svc answers above argp machine).taken = [] ∧
      (nfsWrite1Svc answers above argp machine).machine.files = machine.files := by
  cases checks : checked answers (argp.path above) machine with
  | none =>
      by_cases denied : machine.access answers.accessible (argp.path above) < 0
      · simp [nfsWrite1Svc, denied]
      · simp only [nfsWrite1Svc, denied, checks_fail checks denied, if_false, and_self]
  | some inode =>
      have ⟨allowed, nonzero, regular⟩ := checks_pass checks
      rcases refused with failed | opens | transfer
      · cases checks.symm.trans failed
      · simp [nfsWrite1Svc, allowed, nonzero, regular, opens, returned]
      · simp [nfsWrite1Svc, allowed, nonzero, regular, transfer, returned]

/-- Any other write request moves bytes, to where `lseek` went, or to the beginning of the file
when `lseek` failed. -/
theorem nfsWrite1Svc_written {inode limit : ℕ}
    (passed : checked answers (argp.path above) machine = some inode)
    (opens : answers.opens = true) (transfer : answers.transfer = some limit) :
    (nfsWrite1Svc answers above argp machine).result = transferred limit argp.size.toNat ∧
      (nfsWrite1Svc answers above argp machine).taken =
        List.range (transferred limit argp.size.toNat) ∧
      (nfsWrite1Svc answers above argp machine).machine.files =
        machine.files.write inode (if answers.seeks then argp.offset.toNat else 0)
          ((List.range (transferred limit argp.size.toNat)).map (argp.memory above)) := by
  have ⟨allowed, nonzero, regular⟩ := checks_pass passed
  have ⟨_, found, _⟩ := checked_eq_some.mp passed
  rcases openFile_openAt found .writeOnly with ⟨fd, opened, opens_eq, openAt⟩
  cases seeks : answers.seeks with
  | false =>
      rcases openAt.write limit (argp.memory above) argp.size.toNat with
        ⟨written, write_eq, files, _⟩
      simp [nfsWrite1Svc, allowed, nonzero, regular, opens, opens_eq, seeks, transfer, write_eq,
        returned, files]
  | true =>
      rcases openAt.lseek argp.offset.toNat with ⟨sought, lseek_eq, soughtAt⟩
      rcases soughtAt.write limit (argp.memory above) argp.size.toNat with
        ⟨written, write_eq, files, _⟩
      simp [nfsWrite1Svc, allowed, nonzero, regular, opens, opens_eq, seeks, lseek_eq, transfer,
        write_eq, returned, files]

theorem nfsWrite1Svc_frame :
    (nfsWrite1Svc answers above argp machine).machine.cwd = machine.cwd ∧
      (nfsWrite1Svc answers above argp machine).machine.files.resolve =
        machine.files.resolve := by
  simp only [nfsWrite1Svc]
  split
  case isTrue => exact ⟨rfl, rfl⟩
  case isFalse =>
    split
    case isTrue => simp
    case isFalse => exact ⟨rfl, rfl⟩

end Write

section Read

/-- The bytes of the file that a read request gets, when every call for it succeeds. -/
def readable (answers : Answers) (argp : FileArgsR) (machine : Machine) : Option (List Byte) :=
  match checked answers argp.path machine, answers.opens, answers.seeks, answers.transfer with
  | some inode, true, true, some limit =>
      some (slice (machine.files.bytes inode) argp.offset.toNat
        (transferred limit argp.size.toNat))
  | _, _, _, _ => none

/-- What a read request does: it stores the bytes that can be read, reports their number or -1,
and leaves the files and the working directory alone. -/
theorem nfsRead1Svc_spec (answers : Answers) (argp : FileArgsR) (result : Bufnode)
    (machine : Machine) :
    (nfsRead1Svc answers argp result machine).result =
        result.readInto (readable answers argp machine) ∧
      (nfsRead1Svc answers argp result machine).stored =
        List.range ((readable answers argp machine).getD []).length ∧
      (nfsRead1Svc answers argp result machine).machine.files = machine.files ∧
      (nfsRead1Svc answers argp result machine).machine.cwd = machine.cwd := by
  have failed : result.failed = result.readInto none := by
    simp [Bufnode.failed, Bufnode.readInto, returned]
  cases checks : checked answers argp.path machine with
  | none =>
      simp only [readable, checks, ← failed]
      by_cases denied : machine.access answers.accessible argp.path < 0
      · simp [nfsRead1Svc, denied]
      · simp only [nfsRead1Svc, denied, checks_fail checks denied, if_false]
        simp
  | some inode =>
      have ⟨allowed, nonzero, regular⟩ := checks_pass checks
      have ⟨_, found, _⟩ := checked_eq_some.mp checks
      cases opens : answers.opens with
      | false =>
          simp [nfsRead1Svc, readable, allowed, nonzero, regular, checks, opens, failed]
      | true =>
          rcases openFile_openAt found .readOnly with ⟨fd, opened, opens_eq, openAt⟩
          cases seeks : answers.seeks with
          | false =>
              simp [nfsRead1Svc, readable, allowed, nonzero, regular, checks, opens, opens_eq,
                seeks, failed, openAt.files, openAt.cwd]
          | true =>
              have reached : ¬ (argp.offset.toNat : ℤ) < 0 := by omega
              rcases openAt.lseek argp.offset.toNat with ⟨sought, lseek_eq, soughtAt⟩
              cases transfer : answers.transfer with
              | none =>
                  simp [nfsRead1Svc, readable, allowed, nonzero, regular, checks, opens,
                    opens_eq, seeks, lseek_eq, reached, transfer, soughtAt.files, soughtAt.cwd]
              | some limit =>
                  rcases soughtAt.read limit argp.size.toNat with ⟨next, read_eq, files, cwd⟩
                  simp [nfsRead1Svc, readable, allowed, nonzero, regular, checks, opens,
                    opens_eq, seeks, lseek_eq, reached, transfer, read_eq, files, cwd]

end Read

end NetLab.Nfs
