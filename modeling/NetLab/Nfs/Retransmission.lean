import NetLab.Nfs.Transfers

/-!
# Write requests that arrive twice

The client calls over a datagram transport and sends a call again that was not
answered in time, so the server may execute it twice. The second execution of a
write finds the file as the first has left it, with the bytes already in place.
-/

namespace NetLab.Nfs

open NetLab.Posix

theorem write_write (files : FileSystem) (inode offset : ℕ) (data : List Byte) :
    (files.write inode offset data).write inode offset data = files.write inode offset data := by
  simp only [FileSystem.write, Function.update_self, Function.update_idem, overwrite_overwrite]

section Again

variable {answers : Answers} {above otherAbove : List Byte} {argp : FileArgsW}
  {machine : Machine}

theorem checked_again :
    checked answers (argp.path above) (nfsWrite1Svc answers above argp machine).machine =
      checked answers (argp.path above) machine := by
  rcases refused_or_passed answers (argp.path above) machine with
    refused | ⟨inode, limit, passed, opens, transfer⟩
  · have ⟨_, _, files⟩ := nfsWrite1Svc_refused refused
    have cwd : (nfsWrite1Svc answers above argp machine).machine.cwd = machine.cwd :=
      nfsWrite1Svc_frame.1
    exact checked_congr cwd (by rw [files]) (by rw [files])
  · exact checked_after_write passed opens transfer

end Again

/-- A write request of at most 1024 bytes that is executed a second time, with the calls behaving as
they did the first time, leaves the files as they are and gives the same reply. The stack above the
argument may have changed, as long as the name is the same. -/
theorem nfsWrite1Svc_twice (answers : Answers) (above otherAbove : List Byte) (argp : FileArgsW)
    (machine : Machine) (fits : argp.size.toNat ≤ 1024)
    (sameName : argp.path otherAbove = argp.path above) :
    let once := nfsWrite1Svc answers above argp machine
    let twice := nfsWrite1Svc answers otherAbove argp once.machine
    twice.machine.files = once.machine.files ∧ twice.result = once.result := by
  intro once twice
  have again : checked answers (argp.path otherAbove) once.machine =
      checked answers (argp.path above) machine := by
    rw [sameName]
    exact checked_again
  rcases refused_or_passed answers (argp.path above) machine with
    refused | ⟨inode, limit, passed, opens, transfer⟩
  · have ⟨result, _, _⟩ := nfsWrite1Svc_refused refused
    rw [← again] at refused
    have ⟨nextResult, _, nextFiles⟩ := nfsWrite1Svc_refused refused
    exact ⟨nextFiles, nextResult.trans result.symm⟩
  · have ⟨result, _, files⟩ := nfsWrite1Svc_written passed opens transfer
    have ⟨nextResult, _, nextFiles⟩ := nfsWrite1Svc_written (again.trans passed) opens transfer
    have short : transferred limit argp.size.toNat ≤ 1024 :=
      (transferred_le_count _ _).trans fits
    refine ⟨?_, nextResult.trans result.symm⟩
    change once.machine.files = _ at files
    rw [nextFiles, files, map_memory_eq_take short, map_memory_eq_take short, write_write]

theorem nfsWrite1Svc_twice_gap :
    let once := nfsWrite1Svc granted [] (writeRequest 3#32 2#32) (oneFile [65#8, 66#8])
    let twice := nfsWrite1Svc granted [] (writeRequest 3#32 2#32) once.machine
    twice.machine.files = once.machine.files ∧ twice.result = once.result :=
  nfsWrite1Svc_twice granted [] [] (writeRequest 3#32 2#32) (oneFile [65#8, 66#8]) (by decide) rfl

end NetLab.Nfs
