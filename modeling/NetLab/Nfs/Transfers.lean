import NetLab.Nfs.Requests
import NetLab.Posix.Contents

/-!
# Reading back what was written

A write request that goes through puts its bytes where it was told to, and a read
request of the same place gets them back, for every length of the file and every
offset. Both handlers may move fewer bytes than they are asked for; the write may
have been short, and the read is asked for what the write has reported.
-/

namespace NetLab.Nfs

open NetLab.Posix

section Transfers

variable {answers : Answers} {above : List Byte} {argp : FileArgsW} {machine : Machine}
  {inode limit : ℕ}

theorem map_memory_eq_take {count : ℕ} (fits : count ≤ 1024) :
    (List.range count).map (argp.memory above) = argp.buffer.toList.take count := by
  apply List.ext_getElem
  · simp
    omega
  · intro index inside _
    have short : index < 1024 := by
      rw [List.length_map, List.length_range] at inside
      omega
    have held : index < argp.buffer.toList.length := by simpa using short
    simp only [FileArgsW.memory, FileArgsW.fromBuffer, List.getD_eq_getElem?_getD,
      List.append_assoc, List.getElem?_append_left held, List.getElem_map, List.getElem_range,
      List.getElem_take, List.getElem?_eq_getElem held, Option.getD_some]

/-- The checks look at nothing that a write changes. -/
theorem checked_after_write {path : Path} {reader : Answers}
    (passed : checked answers (argp.path above) machine = some inode)
    (opens : answers.opens = true) (transfer : answers.transfer = some limit) :
    checked reader path (nfsWrite1Svc answers above argp machine).machine =
      checked reader path machine := by
  have ⟨_, _, files⟩ := nfsWrite1Svc_written passed opens transfer
  have cwd : (nfsWrite1Svc answers above argp machine).machine.cwd = machine.cwd :=
    nfsWrite1Svc_frame.1
  simp only [checked, Machine.inodeAt, files, cwd]
  rfl

/-- A write request for a regular file, all of whose calls succeed. -/
structure WriteGranted (answers : Answers) (above : List Byte) (argp : FileArgsW)
    (machine : Machine) (inode : ℕ) : Prop where
  passed : checked answers (argp.path above) machine = some inode
  opens : answers.opens = true
  seeks : answers.seeks = true
  moves : ∃ limit, answers.transfer = some limit

/-- A read request for a regular file, all of whose calls succeed, and whose `read` is not cut
short below `count` bytes. -/
structure ReadGranted (answers : Answers) (argp : FileArgsR) (machine : Machine)
    (inode count : ℕ) : Prop where
  passed : checked answers argp.path machine = some inode
  opens : answers.opens = true
  seeks : answers.seeks = true
  moves : ∃ limit, answers.transfer = some limit ∧ count ≤ limit

/-- A write request of at most 1024 bytes that is answered with `count` has put the first `count`
bytes of its buffer into its file. -/
theorem files_after_write {count : ℕ} (granted : WriteGranted answers above argp machine inode)
    (fits : argp.size.toNat ≤ 1024)
    (replied : (nfsWrite1Svc answers above argp machine).result = count) :
    count ≤ 1024 ∧ (nfsWrite1Svc answers above argp machine).machine.files =
      machine.files.write inode argp.offset.toNat (argp.buffer.toList.take count) := by
  rcases granted.moves with ⟨limit, transfer⟩
  have ⟨result, _, files⟩ := nfsWrite1Svc_written granted.passed granted.opens transfer
  have moved : transferred limit argp.size.toNat = count :=
    Int.natCast_inj.mp (result.symm.trans replied)
  have short : count ≤ 1024 := moved ▸ (transferred_le_count _ _).trans fits
  rw [granted.seeks, if_pos rfl, moved, map_memory_eq_take short] at files
  exact ⟨short, files⟩

theorem reply_of_slice {reader : Answers} {readArgp : FileArgsR} {data : List Byte}
    (result : Bufnode) (granted : ReadGranted reader readArgp machine inode data.length)
    (short : data.length ≤ 1024) (sameCount : readArgp.size.toNat = data.length)
    (held : slice (machine.files.bytes inode) readArgp.offset.toNat data.length = data) :
    (nfsRead1Svc reader readArgp result machine).result.size.toNat = data.length ∧
      (nfsRead1Svc reader readArgp result machine).result.buffer.toList.take data.length =
        data := by
  rcases granted.moves with ⟨limit, transfer, whole⟩
  have cap : 1024 ≤ transferCap := by decide
  have moved : transferred limit data.length = data.length := by
    simp only [transferred]
    omega
  have found : readable reader readArgp machine = some data := by
    simp only [readable, granted.passed, granted.opens, granted.seeks, transfer, sameCount,
      moved, held]
  rw [(nfsRead1Svc_spec reader readArgp result machine).1, found]
  constructor
  · simp [Bufnode.readInto, returned]
    omega
  · simp [Bufnode.readInto, toList_storePrefix short]

/-- A write request of at most 1024 bytes whose calls succeed and that is answered with `count`
replaces `count` bytes of its file by the first ones of its buffer and touches no other file, and
a read request for `count` bytes of the same place answers `count` and these bytes. -/
theorem read_after_write {reader : Answers} {readArgp : FileArgsR} {count : ℕ}
    (result : Bufnode) (writes : WriteGranted answers above argp machine inode)
    (fits : argp.size.toNat ≤ 1024)
    (replied : (nfsWrite1Svc answers above argp machine).result = count)
    (reads : ReadGranted reader readArgp machine inode count)
    (sameOffset : readArgp.offset = argp.offset) (sameCount : readArgp.size.toNat = count) :
    let after := (nfsWrite1Svc answers above argp machine).machine
    let reply := (nfsRead1Svc reader readArgp result after).result
    Replaced (machine.files.bytes inode) argp.offset.toNat (argp.buffer.toList.take count)
        (after.files.bytes inode) ∧
      (∀ other ≠ inode, after.files.bytes other = machine.files.bytes other) ∧
      reply.size.toNat = count ∧
      reply.buffer.toList.take count = argp.buffer.toList.take count := by
  intro after reply
  have ⟨short, files⟩ := files_after_write writes fits replied
  have length : (argp.buffer.toList.take count).length = count := by
    simpa using short
  have bytes : after.files.bytes inode = overwrite (machine.files.bytes inode)
      argp.offset.toNat (argp.buffer.toList.take count) := by
    simp only [after, files, FileSystem.write, Function.update_self]
  have granted : ReadGranted reader readArgp after inode
      (argp.buffer.toList.take count).length := by
    rcases writes.moves with ⟨limit, transfer⟩
    rw [length]
    refine { reads with passed := ?_ }
    exact (checked_after_write writes.passed writes.opens transfer).trans reads.passed
  have held : slice (after.files.bytes inode) readArgp.offset.toNat
      (argp.buffer.toList.take count).length = argp.buffer.toList.take count := by
    rw [bytes, sameOffset, slice_overwrite]
  have answer := reply_of_slice result granted (by omega) (by omega) held
  rw [length] at answer
  refine ⟨?_, ?_, answer⟩
  · rw [bytes]
    exact overwrite_replaced _ _ _
  · intro other different
    simp only [after, files, FileSystem.write, Function.update_of_ne different]

end Transfers

/-- Two bytes are written behind a gap and read back. -/
theorem read_after_write_gap :
    let after := (nfsWrite1Svc granted [] (writeRequest 3#32 2#32) (oneFile [65#8, 66#8])).machine
    let reply := (nfsRead1Svc granted (readRequest 3#32 2#32) Bufnode.initial after).result
    Replaced [65#8, 66#8] 3 ((writeRequest 3#32 2#32).buffer.toList.take 2)
        (after.files.bytes 0) ∧
      (∀ other ≠ 0, after.files.bytes other = (oneFile [65#8, 66#8]).files.bytes other) ∧
      reply.size.toNat = 2 ∧
      reply.buffer.toList.take 2 = (writeRequest 3#32 2#32).buffer.toList.take 2 := by
  have passed : checked granted ((writeRequest 3#32 2#32).path []) (oneFile [65#8, 66#8]) =
      some 0 := checked_oneFile rfl _ _
  have ⟨replied, _, _⟩ := nfsWrite1Svc_written passed rfl rfl
  have writes : WriteGranted granted [] (writeRequest 3#32 2#32) (oneFile [65#8, 66#8]) 0 :=
    ⟨passed, rfl, rfl, 4096, rfl⟩
  have reads : ReadGranted granted (readRequest 3#32 2#32) (oneFile [65#8, 66#8]) 0 2 :=
    ⟨checked_oneFile rfl _ _, rfl, rfl, 4096, rfl, by decide⟩
  exact read_after_write Bufnode.initial writes (by decide) replied reads rfl rfl

end NetLab.Nfs
