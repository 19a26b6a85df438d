import NetLab.Nfs.Handlers

/-!
# The descriptors of the server

Which requests return with a descriptor more than before: a listing, which never
closes its directory, a read whose `lseek` fails, and a file that is created. Every
other handler closes what it opened, so a run keeps the number of open descriptors
exactly when it has no such request.
-/

namespace NetLab.Nfs

open NetLab.Posix NetLab.Systems

/-- Whether the handler of a request leaves a descriptor open: it gets through the checks, the call
that opens succeeds, and the exit it takes does not close. -/
def Server.leaks (server : Server) : Request → Bool
  | .ls answers argp =>
      answers.accessible && (answers.opens && (server.machine.directoryAt argp.path).isSome)
  | .read answers argp =>
      (checked answers argp.path server.machine).isSome && (answers.opens && !answers.seeks)
  | .touch change argp =>
      match change (server.machine.place argp.path) server.machine.files with
      | some files => ({ server.machine with files }.inodeAt argp.path).isSome
      | none => false
  | _ => false

section Handlers

variable {machine : Machine}

/-- The checks of `nfs_ls_1_svc`, as for the other two in `checked`. -/
theorem ls_checks_iff {accessible : Bool} {path : Path} :
    (accessible && (machine.directoryAt path).isSome) = true ↔
      ¬ machine.access accessible path < 0 ∧
        (machine.stMode path ≠ 0#32 ∧ isDirectory (machine.stMode path) = true) := by
  have nonzero : ∀ mode : BitVec 32, isDirectory mode = true → mode ≠ 0#32 := by
    rintro mode directory rfl
    cases directory
  cases found : machine.inodeAt path with
  | none => simp [Machine.directoryAt, Machine.access, found]
  | some inode =>
      cases accessible with
      | false => simp [Machine.access]
      | true =>
          simp only [Machine.directoryAt, Machine.access, Machine.stMode, found, Option.filter]
          by_cases directory : isDirectory (machine.files.mode inode) = true
          · simp [directory, nonzero _ directory]
          · simp [directory]

theorem nfsLs1Svc_openCount {answers : LsAnswers} {argp result : Bufnode} {outcome : ReadOutcome}
    (returns : nfsLs1Svc answers argp result machine = some outcome) :
    outcome.machine.openCount = machine.openCount +
      (answers.accessible &&
        (answers.opens && (machine.directoryAt argp.path).isSome)).toNat := by
  by_cases passed : (answers.accessible && (machine.directoryAt argp.path).isSome) = true
  · have ⟨allowed, directory⟩ := ls_checks_iff.mp passed
    have ⟨accessible, _⟩ := Bool.and_eq_true_iff.mp passed
    rw [nfsLs1Svc, if_neg allowed] at returns
    simp only [if_pos directory, Option.ite_none_left_eq_some, Option.some.injEq,
      Machine.opendir_neg_iff] at returns
    rcases returns with ⟨_, rfl⟩
    simp only [Bufnode.reply, Machine.opendir_openCount, accessible, Bool.true_and]
  · have kept : outcome.machine = machine := by
      rw [nfsLs1Svc] at returns
      split at returns
      case isTrue =>
        rw [← Option.some.inj returns]
        rfl
      case isFalse allowed =>
        simp only [if_neg fun directory => passed (ls_checks_iff.mpr ⟨allowed, directory⟩)]
          at returns
        rw [← Option.some.inj returns]
        rfl
    have closed : (answers.accessible &&
        (answers.opens && (machine.directoryAt argp.path).isSome)) = false := by
      rw [Bool.and_left_comm, Bool.eq_false_of_not_eq_true passed, Bool.and_false]
    simp only [kept, closed, Bool.toNat_false, Nat.add_zero]

theorem nfsWrite1Svc_openCount (answers : Answers) (above : List Byte) (argp : FileArgsW) :
    (nfsWrite1Svc answers above argp machine).machine.openCount = machine.openCount := by
  simp only [nfsWrite1Svc]
  split
  case isTrue => rfl
  case isFalse =>
    split
    case isTrue => simp
    case isFalse => rfl

theorem nfsRead1Svc_openCount (answers : Answers) (argp : FileArgsR) (result : Bufnode) :
    (nfsRead1Svc answers argp result machine).machine.openCount = machine.openCount +
      ((checked answers argp.path machine).isSome && (answers.opens && !answers.seeks)).toNat := by
  cases checks : checked answers argp.path machine with
  | none =>
      simp only [nfsRead1Svc]
      split
      case isTrue => simp
      case isFalse allowed =>
        rw [if_neg (checks_fail checks allowed)]
        simp
  | some inode =>
      rcases checks_pass checks with ⟨allowed, regular⟩
      rcases checked_eq_some.mp checks with ⟨_, found, _⟩
      simp only [nfsRead1Svc, if_neg allowed, if_pos regular]
      split
      case isTrue lost =>
        simp only [Machine.lseek_neg_iff, Machine.openFile_isOpen, found] at lost
        cases opens : answers.opens with
        | false => simp
        | true =>
            have seeks : answers.seeks = false := by simpa [opens] using lost
            simp [found, seeks]
      case isFalse reached =>
        simp only [Machine.lseek_neg_iff, Machine.openFile_isOpen, found] at reached
        simp at reached
        simp [reached.1, reached.2, found]

theorem nfsTouch1Svc_openCount (change : NameChange) (argp : Bufnode) :
    (nfsTouch1Svc change argp machine).2.openCount = machine.openCount +
      (match change (machine.place argp.path) machine.files with
        | some files => ({ machine with files }.inodeAt argp.path).isSome
        | none => false).toNat := by
  simp only [nfsTouch1Svc, Machine.creat]
  cases made : change (machine.place argp.path) machine.files with
  | none => rfl
  | some files =>
      rw [Machine.openFile_openCount, Bool.true_and]
      rfl

theorem setattr1Svc_openCount (accessible permitted : Bool) (argp : Bufnode) :
    (setattr1Svc accessible permitted argp machine).2.openCount = machine.openCount := by
  rw [setattr1Svc]
  split
  case isTrue => rfl
  case isFalse => simp only [Machine.openCount, Machine.chmod_descriptors]

end Handlers

/-- A handler that returns has closed everything it opened, unless the request leaks. -/
theorem Server.serve_openCount {server next : Server} {request : Request}
    (returns : server.serve request = some next) :
    next.machine.openCount = server.machine.openCount + (server.leaks request).toNat := by
  simp only [serve, nfsRemote1] at returns
  cases request with
  | ls answers argp =>
      simp only [Option.map_map, Option.map_eq_some_iff] at returns
      rcases returns with ⟨outcome, listed, rfl⟩
      exact nfsLs1Svc_openCount listed
  | write answers above argp =>
      cases returns
      exact nfsWrite1Svc_openCount answers above argp
  | read answers argp =>
      cases returns
      exact nfsRead1Svc_openCount answers argp server.readResult
  | cd permitted argp =>
      cases returns
      simp only [answered, nfsCd1Svc, Machine.openCount, Machine.chdir_descriptors]
      rfl
  | getattr accessible details argp =>
      cases returns
      rfl
  | setattr accessible permitted argp =>
      cases returns
      exact setattr1Svc_openCount accessible permitted argp
  | remove change argp =>
      cases returns
      simp only [answered, nfsRemove1Svc, Machine.openCount, Machine.changeName_descriptors]
      rfl
  | mkdir change argp =>
      cases returns
      simp only [answered, nfsMkdir1Svc, Machine.openCount, Machine.changeName_descriptors]
      rfl
  | touch change argp =>
      cases returns
      exact nfsTouch1Svc_openCount change argp

/-- Every handler of a run returns with as many descriptors open as it was called with. -/
def KeepsDescriptors (server : Server) (requests : List Request) : Prop :=
  EveryStep Server.serve
    (fun before _ after => after.machine.openCount = before.machine.openCount) server requests

/-- A run keeps the number of open descriptors exactly when none of its requests leaks one. -/
theorem keepsDescriptors_iff (server : Server) (requests : List Request) :
    KeepsDescriptors server requests ↔
      EveryStep Server.serve (fun before request _ => before.leaks request = false)
        server requests := by
  apply everyStep_iff (fun _ => True) trivial
  · intro before request after _ returns
    rw [Server.serve_openCount returns]
    cases before.leaks request <;> simp
  · intro before request after _ _ _
    trivial

section Samples

/-- A file system whose only file is a directory, readable and writable. -/
def oneDirectory : Machine where
  files := { resolve := fun _ _ => some 0, mode := fun _ => 0x41FF#32, bytes := fun _ => [] }
  cwd := 0
  descriptors := []

/-- A request to list the directory, which is empty. -/
def listRequest : Request :=
  .ls { accessible := true, opens := true, names := [] } Bufnode.initial

end Samples

/-- A single listing leaves its directory open. -/
theorem listing_leaks : ¬ KeepsDescriptors (Server.start oneDirectory) [listRequest] := by
  intro keeps
  rcases Option.isSome_iff_exists.mp
    (rfl : ((Server.start oneDirectory).serve listRequest).isSome = true) with ⟨next, returns⟩
  have opened := Server.serve_openCount returns
  rw [(keeps next returns).1] at opened
  exact absurd opened (by decide)

end NetLab.Nfs
