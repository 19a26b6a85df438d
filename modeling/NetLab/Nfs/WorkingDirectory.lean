import NetLab.Nfs.Descriptors

/-!
# Two clients and one working directory

The server has one working directory for all its clients, and every relative name
is taken from it. The run of two clients is compared with the run that lacks the
second client's changes of directory: as long as both clients give relative names
only while the server is where the first client has led it, the two runs differ in
nothing but the working directory.
-/

namespace NetLab.Nfs

open NetLab.Posix NetLab.Systems

inductive Party where
  | a
  | b
deriving DecidableEq, Repr

def Request.isCd : Request → Bool
  | .cd _ _ => true
  | _ => false

/-- The requests of an interleaving that are left when B's changes of directory are removed. -/
def withoutCdOfB (calls : List (Party × Request)) : List (Party × Request) :=
  calls.filter fun call => ¬ (call.1 = .b ∧ call.2.isCd)

/-- What A's requests act on, in their order, as far as the process gets. -/
def placesOfA (server : Server) : List (Party × Request) → List Place
  | [] => []
  | (party, request) :: calls =>
      let later := match server.serve request with
        | some next => placesOfA next calls
        | none => []
      if party = .a then server.machine.place request.path :: later else later

/-- A is not redirected by B: each of its requests acts on what it would act on without B's changes
of directory. -/
def NotRedirected (server : Server) (calls : List (Party × Request)) : Prop :=
  placesOfA server calls = placesOfA server (withoutCdOfB calls)

/-- The directory A works in after a request of its own, which matters when it is a successful
change of directory. -/
def homeAfter (server : Server) (home : ℕ) : Party × Request → ℕ
  | (.a, .cd permitted argp) =>
      if permitted then (server.machine.directoryAt argp.path).getD home else home
  | _ => home

/-- The relative names that a client gives, in other requests than B's changes of directory, are
taken from the directory A works in. -/
def StaysHome (who : Party) (home : ℕ) (server : Server) : List (Party × Request) → Prop
  | [] => True
  | (party, request) :: calls =>
      (party = who → ¬ (who = .b ∧ request.isCd) → isAbsolute request.path = false →
        server.machine.cwd = home) ∧
      ∀ next, server.serve request = some next →
        StaysHome who (homeAfter server home (party, request)) next calls

/-- A request does not make absolute names depend on the working directory. -/
def Request.KeepsRooted : Request → Prop
  | .remove change _ | .mkdir change _ | .touch change _ =>
      ∀ place files made, change place files = some made → files.RootedNames → made.RootedNames
  | _ => True

section Handlers

variable {machine : Machine} {directory : ℕ}

/-- The same outcome in another working directory. -/
def ReadOutcome.inDirectory (outcome : ReadOutcome) (directory : ℕ) : ReadOutcome :=
  { outcome with machine := outcome.machine.inDirectory directory }

theorem nfsLs1Svc_inDirectory (answers : LsAnswers) (argp result : Bufnode)
    (same : (machine.inDirectory directory).inodeAt argp.path = machine.inodeAt argp.path) :
    nfsLs1Svc answers argp result (machine.inDirectory directory) =
      (nfsLs1Svc answers argp result machine).map fun outcome =>
        outcome.inDirectory directory := by
  simp only [nfsLs1Svc, Machine.access_inDirectory same, Machine.stMode_inDirectory same,
    Machine.opendir_inDirectory same]
  split
  case isTrue => rfl
  case isFalse =>
    split
    case isTrue =>
      split
      case isTrue => rfl
      case isFalse => rfl
    case isFalse => rfl

theorem nfsWrite1Svc_inDirectory (answers : Answers) (above : List Byte) (argp : FileArgsW)
    (same : (machine.inDirectory directory).inodeAt (argp.path above) =
      machine.inodeAt (argp.path above)) :
    let outcome := nfsWrite1Svc answers above argp machine
    nfsWrite1Svc answers above argp (machine.inDirectory directory) =
      { outcome with machine := outcome.machine.inDirectory directory } := by
  simp only [nfsWrite1Svc, Machine.access_inDirectory same, Machine.stMode_inDirectory same,
    Machine.openFile_inDirectory same, Machine.lseek_inDirectory, Machine.write_inDirectory,
    Machine.close_inDirectory]
  split
  case isTrue => rfl
  case isFalse =>
    split
    case isTrue => rfl
    case isFalse => rfl

theorem nfsRead1Svc_inDirectory (answers : Answers) (argp : FileArgsR) (result : Bufnode)
    (same : (machine.inDirectory directory).inodeAt argp.path = machine.inodeAt argp.path) :
    nfsRead1Svc answers argp result (machine.inDirectory directory) =
      (nfsRead1Svc answers argp result machine).inDirectory directory := by
  simp only [nfsRead1Svc, Machine.access_inDirectory same, Machine.stMode_inDirectory same,
    Machine.openFile_inDirectory same, Machine.lseek_inDirectory, Machine.read_inDirectory,
    Machine.close_inDirectory]
  split
  case isTrue => rfl
  case isFalse =>
    split
    case isTrue =>
      split
      case isTrue => rfl
      case isFalse => rfl
    case isFalse => rfl

theorem getattr1Svc_inDirectory (accessible : Bool) (details : List Byte) (argp result : Bufnode)
    (same : (machine.inDirectory directory).inodeAt argp.path = machine.inodeAt argp.path) :
    getattr1Svc accessible details argp result (machine.inDirectory directory) =
      getattr1Svc accessible details argp result machine := by
  simp only [getattr1Svc, Machine.access_inDirectory same, Machine.stMode_inDirectory same]

theorem setattr1Svc_inDirectory (accessible permitted : Bool) (argp : Bufnode)
    (same : (machine.inDirectory directory).inodeAt argp.path = machine.inodeAt argp.path) :
    let outcome := setattr1Svc accessible permitted argp machine
    setattr1Svc accessible permitted argp (machine.inDirectory directory) =
      (outcome.1, outcome.2.inDirectory directory) := by
  simp only [setattr1Svc, Machine.access_inDirectory same, Machine.chmod_inDirectory same]
  split
  case isTrue => rfl
  case isFalse => rfl

end Handlers

def Server.inDirectory (server : Server) (directory : ℕ) : Server :=
  { server with machine := server.machine.inDirectory directory }

section Serve

variable {server : Server} {request : Request} {directory : ℕ}

/-- With an absolute name, the working directory plays no part in what a request does. -/
theorem Server.serve_inDirectory (rooted : server.machine.files.RootedNames)
    (keeps : request.KeepsRooted) (absolute : isAbsolute request.path = true)
    (other : request.isCd = false) :
    (server.inDirectory directory).serve request =
      (server.serve request).map fun next => next.inDirectory directory := by
  have same : (server.machine.inDirectory directory).inodeAt request.path =
      server.machine.inodeAt request.path := Machine.inodeAt_inDirectory rooted absolute
  cases request with
  | ls answers argp =>
      simp only [serve, nfsRemote1, inDirectory, nfsLs1Svc_inDirectory _ _ _ same,
        Option.map_map]
      rfl
  | write answers above argp =>
      simp only [serve, nfsRemote1, inDirectory, nfsWrite1Svc_inDirectory _ _ _ same]
      rfl
  | read answers argp =>
      simp only [serve, nfsRemote1, inDirectory, nfsRead1Svc_inDirectory _ _ _ same]
      rfl
  | cd permitted argp => cases other
  | getattr accessible details argp =>
      simp only [serve, nfsRemote1, inDirectory, getattr1Svc_inDirectory _ _ _ _ same]
      rfl
  | setattr accessible permitted argp =>
      simp only [serve, nfsRemote1, inDirectory, setattr1Svc_inDirectory _ _ _ same]
      rfl
  | remove change argp =>
      have named : isAbsolute argp.path = true := absolute
      simp only [serve, nfsRemote1, inDirectory, nfsRemove1Svc,
        Machine.changeName_inDirectory named]
      rfl
  | mkdir change argp =>
      have named : isAbsolute argp.path = true := absolute
      simp only [serve, nfsRemote1, inDirectory, nfsMkdir1Svc,
        Machine.changeName_inDirectory named]
      rfl
  | touch change argp =>
      have made : ∀ files, change (server.machine.place argp.path) server.machine.files =
          some files → files.RootedNames := fun files changed => keeps _ _ files changed rooted
      have named : isAbsolute argp.path = true := absolute
      simp only [serve, nfsRemote1, inDirectory, nfsTouch1Svc,
        Machine.creat_inDirectory named change made]
      rfl

theorem nfsLs1Svc_frame {answers : LsAnswers} {argp result : Bufnode} {machine : Machine}
    {outcome : ReadOutcome} (returns : nfsLs1Svc answers argp result machine = some outcome) :
    outcome.machine.cwd = machine.cwd ∧ outcome.machine.files = machine.files := by
  simp only [nfsLs1Svc] at returns
  split at returns
  case isTrue =>
    rw [← Option.some.inj returns]
    exact ⟨rfl, rfl⟩
  case isFalse =>
    split at returns
    case isTrue =>
      simp only [Option.ite_none_left_eq_some, Option.some.injEq] at returns
      rcases returns with ⟨_, rfl⟩
      exact ⟨Machine.opendir_cwd _ _ _, Machine.opendir_files _ _ _⟩
    case isFalse =>
      rw [← Option.some.inj returns]
      exact ⟨rfl, rfl⟩

theorem Server.serve_cwd {next : Server} (other : request.isCd = false)
    (returns : server.serve request = some next) : next.machine.cwd = server.machine.cwd := by
  simp only [serve, nfsRemote1] at returns
  cases request with
  | ls answers argp =>
      simp only [Option.map_map, Option.map_eq_some_iff] at returns
      rcases returns with ⟨outcome, listed, rfl⟩
      exact (nfsLs1Svc_frame listed).1
  | write answers above argp =>
      cases returns
      exact nfsWrite1Svc_frame.1
  | read answers argp =>
      cases returns
      exact (nfsRead1Svc_spec answers argp server.readResult server.machine).2.2.2
  | cd permitted argp => cases other
  | getattr accessible details argp =>
      cases returns
      rfl
  | setattr accessible permitted argp =>
      cases returns
      simp only [answered, setattr1Svc]
      split
      case isTrue => rfl
      case isFalse => exact Machine.chmod_cwd _ _ _ _
  | remove change argp =>
      cases returns
      exact Machine.changeName_cwd _ _ _
  | mkdir change argp =>
      cases returns
      exact Machine.changeName_cwd _ _ _
  | touch change argp =>
      cases returns
      exact Machine.creat_cwd _ _ _

theorem rooted_of_resolve {files other : FileSystem} (same : files.resolve = other.resolve)
    (rooted : other.RootedNames) : files.RootedNames := by
  intro path first second absolute
  simp only [same]
  exact rooted path first second absolute

theorem changeName_rooted {machine : Machine} {change : NameChange} {path : Path}
    (keeps : ∀ place files made, change place files = some made →
      files.RootedNames → made.RootedNames)
    (rooted : machine.files.RootedNames) :
    (machine.changeName change path).2.files.RootedNames := by
  simp only [Machine.changeName]
  split
  case h_1 changed => exact keeps _ _ _ changed rooted
  case h_2 => exact rooted

theorem Server.serve_rooted {next : Server} (keeps : request.KeepsRooted)
    (rooted : server.machine.files.RootedNames) (returns : server.serve request = some next) :
    next.machine.files.RootedNames := by
  simp only [serve, nfsRemote1] at returns
  cases request with
  | ls answers argp =>
      simp only [Option.map_map, Option.map_eq_some_iff] at returns
      rcases returns with ⟨outcome, listed, rfl⟩
      exact rooted_of_resolve (congrArg FileSystem.resolve (nfsLs1Svc_frame listed).2) rooted
  | write answers above argp =>
      cases returns
      exact rooted_of_resolve nfsWrite1Svc_frame.2 rooted
  | read answers argp =>
      cases returns
      have files := (nfsRead1Svc_spec answers argp server.readResult server.machine).2.2.1
      exact rooted_of_resolve (congrArg FileSystem.resolve files) rooted
  | cd permitted argp =>
      cases returns
      exact rooted_of_resolve (by simp only [answered, nfsCd1Svc, Machine.chdir_files]) rooted
  | getattr accessible details argp =>
      cases returns
      exact rooted
  | setattr accessible permitted argp =>
      cases returns
      simp only [answered, setattr1Svc]
      split
      case isTrue => exact rooted
      case isFalse => exact rooted_of_resolve (Machine.chmod_resolve _ _ _ _) rooted
  | remove change argp =>
      cases returns
      exact changeName_rooted keeps rooted
  | mkdir change argp =>
      cases returns
      exact changeName_rooted keeps rooted
  | touch change argp =>
      cases returns
      simp only [answered, nfsTouch1Svc, Machine.creat]
      split
      case h_1 changed =>
        rw [Machine.openFile_files]
        exact keeps _ _ _ changed rooted
      case h_2 => exact rooted

theorem Server.serve_cd (permitted : Bool) (argp : Bufnode) :
    server.serve (.cd permitted argp) = some (server.inDirectory
      (if permitted then (server.machine.directoryAt argp.path).getD server.machine.cwd
        else server.machine.cwd)) := by
  simp only [serve, nfsRemote1, nfsCd1Svc, answered, Option.map_some, Machine.chdir_eq]
  rfl

end Serve

section Runs

variable {server : Server} {party : Party} {request : Request}
  {calls : List (Party × Request)}

theorem placesOfA_cons_a : placesOfA server ((.a, request) :: calls) =
    server.machine.place request.path ::
      ((server.serve request).map fun next => placesOfA next calls).getD [] := by
  cases returns : server.serve request <;> simp [placesOfA, returns]

theorem placesOfA_cons_b : placesOfA server ((.b, request) :: calls) =
    ((server.serve request).map fun next => placesOfA next calls).getD [] := by
  cases returns : server.serve request <;> simp [placesOfA, returns]

theorem withoutCdOfB_cons_kept (kept : ¬ (party = .b ∧ request.isCd = true)) :
    withoutCdOfB ((party, request) :: calls) = (party, request) :: withoutCdOfB calls := by
  apply List.filter_cons_of_pos
  exact decide_eq_true kept

theorem staysHome_cons {who : Party} {home : ℕ} {next : Server}
    (returns : server.serve request = some next) :
    StaysHome who home server ((party, request) :: calls) ↔
      (party = who → ¬ (who = .b ∧ request.isCd) → isAbsolute request.path = false →
        server.machine.cwd = home) ∧
      StaysHome who (homeAfter server home (party, request)) next calls := by
  simp only [StaysHome, returns, Option.some.injEq, forall_eq']

theorem homeAfter_other {home : ℕ} (other : request.isCd = false) :
    homeAfter server home (party, request) = home := by
  cases request with
  | cd permitted argp => cases other
  | _ => cases party <;> rfl

/-- Two servers that differ in the working directory only still do after a request that gives its
name where it is the same, and the one without B's changes of directory is where A works. -/
theorem serve_related {directory : ℕ} (rooted : server.machine.files.RootedNames)
    (keeps : request.KeepsRooted) (kept : ¬ (party = .b ∧ request.isCd = true))
    (named : isAbsolute request.path = false → directory = server.machine.cwd) :
    (∃ next directory', server.serve request = some next ∧
      (server.inDirectory directory).serve request = some (next.inDirectory directory') ∧
      homeAfter (server.inDirectory directory) server.machine.cwd (party, request) =
        next.machine.cwd ∧ next.machine.files.RootedNames) ∨
    server.serve request = none ∧ (server.inDirectory directory).serve request = none := by
  have related : isAbsolute request.path = true ∨ directory = server.machine.cwd := by
    cases absolute : isAbsolute request.path with
    | true => exact .inl rfl
    | false => exact .inr (named absolute)
  cases changes : request.isCd with
  | false =>
      have same : (server.inDirectory directory).serve request =
          (server.serve request).map fun next => next.inDirectory directory := by
        rcases related with absolute | rfl
        · exact Server.serve_inDirectory rooted keeps absolute changes
        · cases returns : server.serve request with
          | none => exact returns
          | some next =>
              have stays : next = next.inDirectory server.machine.cwd := by
                rw [← Server.serve_cwd changes returns]
                rfl
              exact returns.trans (congrArg some stays)
      rw [same, homeAfter_other changes]
      cases returns : server.serve request with
      | none => exact .inr ⟨rfl, rfl⟩
      | some next =>
          refine .inl ⟨next, directory, rfl, rfl, ?_, ?_⟩
          · exact (Server.serve_cwd changes returns).symm
          · exact Server.serve_rooted keeps rooted returns
  | true =>
      cases request with
      | cd permitted argp =>
          have found : (server.machine.inDirectory directory).directoryAt argp.path =
              server.machine.directoryAt argp.path := by
            rcases related with absolute | rfl
            · exact Machine.directoryAt_inDirectory
                (Machine.inodeAt_inDirectory rooted absolute)
            · rfl
          have ofA : party = .a := by
            cases party with
            | a => rfl
            | b => exact absurd ⟨rfl, rfl⟩ kept
          subst ofA
          left
          refine ⟨_, _, Server.serve_cd permitted argp, Server.serve_cd permitted argp, ?_, ?_⟩
          · simp only [homeAfter, Server.inDirectory, found]
            rfl
          · exact rooted
      | _ => cases changes

theorem placesOfA_eq_iff {directory : ℕ} (rooted : server.machine.files.RootedNames)
    (keep : ∀ call ∈ calls, call.2.KeepsRooted)
    (homeOfB : StaysHome .b server.machine.cwd (server.inDirectory directory) calls) :
    placesOfA (server.inDirectory directory) calls = placesOfA server (withoutCdOfB calls) ↔
      StaysHome .a server.machine.cwd (server.inDirectory directory) calls := by
  induction calls generalizing server directory with
  | nil => exact iff_of_true rfl trivial
  | cons call calls ih =>
      rcases call with ⟨party, request⟩
      have ⟨keeps, later⟩ := List.forall_mem_cons.mp keep
      rcases homeOfB with ⟨namedOfB, homeOfB⟩
      by_cases removed : party = .b ∧ request.isCd = true
      · rcases removed with ⟨rfl, changes⟩
        cases request with
        | cd permitted argp =>
            have moved := (server.inDirectory directory).serve_cd permitted argp
            have dropped : withoutCdOfB ((Party.b, Request.cd permitted argp) :: calls) =
                withoutCdOfB calls := List.filter_cons_of_neg (by simp [Request.isCd])
            rw [dropped, placesOfA_cons_b, staysHome_cons moved, moved]
            apply (ih rooted later (homeOfB _ moved)).trans
            exact (and_iff_right nofun).symm
        | _ => cases changes
      · rw [withoutCdOfB_cons_kept removed]
        by_cases named : isAbsolute request.path = false → directory = server.machine.cwd
        · rcases serve_related rooted keeps removed named with
            ⟨next, directory', returns, returns', home, rooted'⟩ | ⟨ends, ends'⟩
          · have rest := homeOfB _ returns'
            rw [home] at rest
            have tail := ih rooted' later rest
            rw [staysHome_cons returns', home, ← tail]
            cases party with
            | a =>
                have same : (server.inDirectory directory).machine.place request.path =
                    server.machine.place request.path := Machine.place_inDirectory_eq_iff.mpr named
                simp only [placesOfA_cons_a, returns, returns', same, Option.map_some,
                  Option.getD_some, List.cons_inj_right]
                exact (and_iff_right fun _ _ => named).symm
            | b =>
                simp only [placesOfA_cons_b, returns, returns', Option.map_some,
                  Option.getD_some]
                exact (and_iff_right nofun).symm
          · have both : StaysHome .a server.machine.cwd (server.inDirectory directory)
                ((party, request) :: calls) :=
              ⟨fun _ _ => named, fun next returns => nomatch ends'.symm.trans returns⟩
            refine iff_of_true ?_ both
            cases party with
            | a =>
                have same : (server.inDirectory directory).machine.place request.path =
                    server.machine.place request.path := Machine.place_inDirectory_eq_iff.mpr named
                simp only [placesOfA_cons_a, ends, ends', same, Option.map_none,
                  Option.getD_none]
            | b => simp only [placesOfA_cons_b, ends, ends', Option.map_none, Option.getD_none]
        · cases party with
          | a =>
              apply iff_of_false
              · intro equal
                rw [placesOfA_cons_a, placesOfA_cons_a] at equal
                exact named (Machine.place_inDirectory_eq_iff.mp (List.cons.inj equal).1)
              · exact fun homeOfA => named (homeOfA.1 rfl nofun)
          | b => exact absurd (namedOfB rfl removed) named

end Runs

/-- While both clients give relative names only where the server is in the directory that A has led
it to, B's changes of directory do not redirect A; and if A gives one elsewhere, they do. -/
theorem notRedirected_of_staysHome (server : Server) (calls : List (Party × Request))
    (rooted : server.machine.files.RootedNames) (keep : ∀ call ∈ calls, call.2.KeepsRooted) :
    (StaysHome .a server.machine.cwd server calls ∧ StaysHome .b server.machine.cwd server calls →
      NotRedirected server calls) ∧
    (StaysHome .b server.machine.cwd server calls → NotRedirected server calls →
      StaysHome .a server.machine.cwd server calls) := by
  have start : server.inDirectory server.machine.cwd = server := rfl
  constructor
  · rintro ⟨homeOfA, homeOfB⟩
    exact (placesOfA_eq_iff rooted keep (start.symm ▸ homeOfB)).mpr homeOfA
  · intro homeOfB same
    exact (placesOfA_eq_iff rooted keep (start.symm ▸ homeOfB)).mp same

section Samples

/-- An argument that holds a name. -/
def Bufnode.named (name : Path) : Bufnode where
  buffer := storePrefix name (Vector.replicate 1024 0#8)
  size := 0#32

theorem path_named {name : Path} (fits : name.length < 1024) (plain : 0#8 ∉ name) :
    (Bufnode.named name).path = name :=
  cString_storePrefix_of_zero fits plain (Vector.getElem_replicate _) _

/-- The root directory, which absolute names refer to, and a subdirectory. -/
def twoDirectories : Machine where
  files :=
    { resolve := fun _ path => if isAbsolute path then some 0 else some 1
      mode := fun _ => 0x41FF#32
      bytes := fun _ => [] }
  cwd := 0
  descriptors := []

def changeTo (name : Path) : Request :=
  .cd true (Bufnode.named name)

def attributesOf (name : Path) : Request :=
  .getattr true [] (Bufnode.named name)

end Samples

theorem serve_changeTo {name : Path} (fits : name.length < 1024) (plain : 0#8 ∉ name)
    (relative : isAbsolute name = false) :
    (Server.start twoDirectories).serve (changeTo name) =
      some ((Server.start twoDirectories).inDirectory 1) := by
  have found : twoDirectories.inodeAt (Bufnode.named name).path = some 1 := by
    rw [path_named fits plain]
    simp [Machine.inodeAt, twoDirectories, relative]
  have directory : twoDirectories.directoryAt (Bufnode.named name).path = some 1 := by
    rw [Machine.directoryAt, found]
    rfl
  rw [changeTo, Server.serve_cd]
  simp only [Server.start, directory, if_true, Option.getD_some]

/-- After B has changed into `d`, A's request about `f` is one about `d/f`. -/
theorem cd_redirects : ¬ NotRedirected (Server.start twoDirectories)
    [(.b, changeTo [0x64#8]), (.a, attributesOf [0x66#8])] := by
  intro same
  have removed : withoutCdOfB [(.b, changeTo [0x64#8]), (.a, attributesOf [0x66#8])] =
      [(.a, attributesOf [0x66#8])] := rfl
  have moved := serve_changeTo (by decide : [0x64#8].length < 1024) (by decide) (by decide)
  rw [NotRedirected, removed, placesOfA_cons_b, moved, Option.map_some, Option.getD_some,
    placesOfA_cons_a, placesOfA_cons_a] at same
  have relative : isAbsolute (attributesOf [0x66#8]).path = false := by
    rw [attributesOf, Request.path, path_named (by decide) (by decide)]
    rfl
  cases Machine.place_inDirectory_eq_iff.mp (List.cons.inj same).1 relative

/-- B's change into `d` does not affect A's request about `/f`. -/
theorem notRedirected_absolute : NotRedirected (Server.start twoDirectories)
    [(.b, changeTo [0x64#8]), (.a, attributesOf [0x2F#8, 0x66#8])] := by
  have rooted : (Server.start twoDirectories).machine.files.RootedNames := by
    intro path first second absolute
    rfl
  have keep : ∀ call ∈ [(Party.b, changeTo [0x64#8]), (.a, attributesOf [0x2F#8, 0x66#8])],
      call.2.KeepsRooted := by
    simp [changeTo, attributesOf, Request.KeepsRooted]
  have absolute : isAbsolute (attributesOf [0x2F#8, 0x66#8]).path = true := by
    rw [attributesOf, Request.path, path_named (by decide) (by decide)]
    rfl
  apply (notRedirected_of_staysHome _ _ rooted keep).1
  constructor
  · refine ⟨nofun, fun next _ => ⟨fun _ _ relative => ?_, fun _ _ => trivial⟩⟩
    cases absolute.symm.trans relative
  · refine ⟨fun _ other => ?_, fun next _ => ⟨nofun, fun _ _ => trivial⟩⟩
    exact absurd ⟨rfl, rfl⟩ other

end NetLab.Nfs
