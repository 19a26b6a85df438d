import NetLab.Nfs.Requests

/-!
# What a read request shows of earlier ones

The result of `nfs_read_1_svc` is static and never cleared, and `read` stores no
terminator. A run of read requests leaves the files alone, so two histories
differ only in what they left in the buffer; the byte behind the data of the
next request decides whether the client prints any of it.
-/

namespace NetLab.Nfs

open NetLab.Posix

/-- Serve read requests in order. The state of the file system fixes what the operating system
answers to each. -/
def serveReads (answersTo : FileArgsR → Answers) :
    List FileArgsR → Bufnode → Machine → Bufnode × Machine
  | [], result, machine => (result, machine)
  | argp :: history, result, machine =>
      let outcome := nfsRead1Svc (answersTo argp) argp result machine
      serveReads answersTo history outcome.result outcome.machine

/-- What the client prints for a request to a server that has served the history before. -/
def printedAfter (answersTo : FileArgsR → Answers) (behind : List Byte) (machine : Machine)
    (request : FileArgsR) (history : List FileArgsR) : List Byte :=
  let (result, machine) := serveReads answersTo history Bufnode.initial machine
  let outcome := nfsRead1Svc (answersTo request) request result machine
  (nfsRemote1Read behind (some outcome.result)).printed

/-- The bytes of its file that a request gets; none if they cannot be read. -/
def bytesFor (answersTo : FileArgsR → Answers) (machine : Machine) (argp : FileArgsR) : List Byte :=
  (readable (answersTo argp) argp machine).getD []

/-- The bytes the request gets contain a terminator or fill the buffer, or no read request gets a
byte other than zero at the place behind them. -/
def HidesHistory (answersTo : FileArgsR → Answers) (machine : Machine) (request : FileArgsR) :
    Prop :=
  0#8 ∈ bytesFor answersTo machine request ∨ (bytesFor answersTo machine request).length = 1024 ∨
    ∀ earlier : FileArgsR, (bytesFor answersTo machine earlier).getD
      (bytesFor answersTo machine request).length 0#8 = 0#8

section History

variable {answersTo : FileArgsR → Answers} {behind : List Byte} {machine : Machine}
  {request : FileArgsR}

theorem readable_congr {other : Machine} (files : other.files = machine.files)
    (cwd : other.cwd = machine.cwd) (answers : Answers) (argp : FileArgsR) :
    readable answers argp other = readable answers argp machine := by
  have checks := @checked_congr answers argp.path machine other cwd (by rw [files]) (by rw [files])
  rw [readable, checks, files, readable]

theorem length_bytesFor_le (argp : FileArgsR) :
    (bytesFor answersTo machine argp).length ≤ argp.size.toNat := by
  simp only [bytesFor, readable]
  split
  · exact (length_slice_le _ _ _).trans (transferred_le_count _ _)
  · exact Nat.zero_le _

theorem serveReads_frame (answersTo : FileArgsR → Answers) (history : List FileArgsR)
    (result : Bufnode) :
    ∀ machine, (serveReads answersTo history result machine).2.files = machine.files ∧
      (serveReads answersTo history result machine).2.cwd = machine.cwd := by
  induction history generalizing result with
  | nil =>
      intro machine
      exact ⟨rfl, rfl⟩
  | cons argp history ih =>
      intro machine
      have ⟨_, _, files, cwd⟩ := nfsRead1Svc_spec (answersTo argp) argp result machine
      have ⟨rest_files, rest_cwd⟩ :=
        ih (nfsRead1Svc (answersTo argp) argp result machine).result
          (nfsRead1Svc (answersTo argp) argp result machine).machine
      exact ⟨rest_files.trans files, rest_cwd.trans cwd⟩

/-- A byte of the buffer stays zero while no request stores another byte there. -/
theorem serveReads_byte_zero {index : ℕ} (inside : index < 1024)
    (never : ∀ earlier, (bytesFor answersTo machine earlier).getD index 0#8 = 0#8)
    (history : List FileArgsR) :
    ∀ (result : Bufnode) (current : Machine), current.files = machine.files →
      current.cwd = machine.cwd → result.buffer[index] = 0#8 →
      (serveReads answersTo history result current).1.buffer[index] = 0#8 := by
  induction history with
  | nil => exact fun _ _ _ _ zero => zero
  | cons argp history ih =>
      intro result current files cwd zero
      have ⟨replied, _, next_files, next_cwd⟩ :=
        nfsRead1Svc_spec (answersTo argp) argp result current
      apply ih _ _ (next_files.trans files) (next_cwd.trans cwd)
      have unstored := never argp
      simp only [bytesFor, List.getD_eq_getElem?_getD] at unstored
      simp only [replied, readable_congr files cwd, Bufnode.readInto, getElem_storePrefix, zero,
        unstored]

theorem printedAfter_eq (answersTo : FileArgsR → Answers) (behind : List Byte)
    (machine : Machine) (request : FileArgsR) :
    ∃ size : BitVec 32, ∀ history, printedAfter answersTo behind machine request history =
      (ReadReport.bytesRead size.toInt (cString
        ((storePrefix (bytesFor answersTo machine request)
          (serveReads answersTo history Bufnode.initial machine).1.buffer).toList ++
            littleEndian size ++ behind))).printed := by
  refine ⟨BitVec.ofInt 32 (returned (readable (answersTo request) request machine)), ?_⟩
  intro history
  have ⟨files, cwd⟩ := serveReads_frame answersTo history Bufnode.initial machine
  simp only [printedAfter, nfsRemote1Read_some, (nfsRead1Svc_spec _ _ _ _).1,
    readable_congr files cwd]
  rfl

/-- Bytes that hide the history are printed in the same way after every history. -/
theorem printedAfter_of_hides (small : request.size.toNat ≤ 1024)
    (hides : HidesHistory answersTo machine request) :
    ∃ printed, ∀ history, printedAfter answersTo behind machine request history = printed := by
  have fits : (bytesFor answersTo machine request).length ≤ 1024 :=
    (length_bytesFor_le request).trans small
  rcases printedAfter_eq answersTo behind machine request with ⟨size, printed⟩
  by_cases hidden : 0#8 ∈ bytesFor answersTo machine request ∨
      (bytesFor answersTo machine request).length = 1024
  · refine ⟨(ReadReport.bytesRead size.toInt (cString (bytesFor answersTo machine request ++
      (littleEndian size ++ behind)))).printed, ?_⟩
    intro history
    rw [printed, List.append_assoc, cString_storePrefix_hidden fits hidden]
  · simp only [HidesHistory, ← or_assoc, hidden, false_or] at hides
    rw [not_or] at hidden
    have inside := lt_of_le_of_ne fits hidden.2
    refine ⟨(ReadReport.bytesRead size.toInt (bytesFor answersTo machine request)).printed, ?_⟩
    intro history
    have zero := serveReads_byte_zero inside hides history Bufnode.initial machine rfl rfl
      (by simp [Bufnode.initial])
    rw [printed, List.append_assoc, cString_storePrefix_of_zero inside hidden.1 zero]

theorem printedAfter_ne {earlier : FileArgsR}
    (fits : (bytesFor answersTo machine request).length < 1024)
    (unterminated : 0#8 ∉ bytesFor answersTo machine request)
    (left : (bytesFor answersTo machine earlier).getD
      (bytesFor answersTo machine request).length 0#8 ≠ 0#8) :
    printedAfter answersTo behind machine request [earlier] ≠
      printedAfter answersTo behind machine request [] := by
  rcases printedAfter_eq answersTo behind machine request with ⟨size, printed⟩
  rw [printed, printed, ne_eq, printed_bytesRead_inj, List.append_assoc, List.append_assoc]
  have clean : Bufnode.initial.buffer[(bytesFor answersTo machine request).length] = 0#8 := by
    simp [Bufnode.initial]
  have stale : (serveReads answersTo [earlier] Bufnode.initial machine).1.buffer[(bytesFor answersTo
      machine request).length] ≠ 0#8 := by
    simp only [serveReads, (nfsRead1Svc_spec _ _ _ _).1, Bufnode.readInto, getElem_storePrefix,
      clean]
    simpa only [bytesFor, List.getD_eq_getElem?_getD] using left
  intro same
  have ends : cString ((storePrefix (bytesFor answersTo machine request)
      (serveReads answersTo [] Bufnode.initial machine).1.buffer).toList ++
        (littleEndian size ++ behind)) = bytesFor answersTo machine request :=
    cString_storePrefix_of_zero fits unterminated clean _
  exact cString_storePrefix_ne fits unterminated stale _ (same.trans ends)

end History

/-- No leak between read requests: whatever was read before, the client prints the same text,
exactly for the requests whose bytes hide the history. -/
theorem reads_isolated_iff (answersTo : FileArgsR → Answers) (behind : List Byte)
    (machine : Machine) (request : FileArgsR) (small : request.size.toNat ≤ 1024) :
    (∀ history other, printedAfter answersTo behind machine request history =
      printedAfter answersTo behind machine request other) ↔
    HidesHistory answersTo machine request := by
  constructor
  · intro isolated
    by_contra shows
    simp only [HidesHistory, not_or, not_forall] at shows
    rcases shows with ⟨unterminated, short, earlier, left⟩
    have fits := lt_of_le_of_ne ((length_bytesFor_le request).trans small) short
    exact printedAfter_ne fits unterminated left (isolated [earlier] [])
  · intro hides history other
    rcases printedAfter_of_hides small hides with ⟨text, printed⟩
    exact (printed history).trans (printed other).symm

theorem reads_isolated_terminated :
    printedAfter (fun _ => granted) [] (oneFile [65#8, 0#8]) (readRequest 0#32 2#32)
        [readRequest 0#32 1#32] =
      printedAfter (fun _ => granted) [] (oneFile [65#8, 0#8]) (readRequest 0#32 2#32) [] :=
  (reads_isolated_iff (fun _ => granted) [] (oneFile [65#8, 0#8]) (readRequest 0#32 2#32)
    (by decide)).mpr (.inl (by decide)) [readRequest 0#32 1#32] []

/-- One byte is read and two are printed, if the second one was read before. -/
theorem earlier_read_shows :
    printedAfter (fun _ => granted) [] (oneFile [65#8, 66#8]) (readRequest 0#32 1#32)
        [readRequest 0#32 2#32] ≠
      printedAfter (fun _ => granted) [] (oneFile [65#8, 66#8]) (readRequest 0#32 1#32) [] :=
  printedAfter_ne (by decide) (by decide) (by decide)

end NetLab.Nfs
