import NetLab.Nfs.Store

/-!
# Sessions at several terminals

Whatever is typed at the terminals, in whatever order, prints what the commands say about one store,
as long as the lines are documented and the system obliges. The proof goes handler by handler; the
reading of the lines and the transport of the calls are those of the other modules.
-/

namespace NetLab.Nfs

open NetLab.Posix NetLab.Structures

section Slots

/-- The length of the table of open files. -/
def slots (machine : Machine) : ℕ :=
  machine.descriptors.length

variable (machine : Machine)

theorem length_allocate_le (file : OpenFile) (table : List (Option OpenFile)) :
    (allocate file table).2.length ≤ table.length + 1 ∧
      (allocate file table).1 ≤ table.length := by
  induction table with
  | nil => exact ⟨le_rfl, le_rfl⟩
  | cons slot table ih =>
      cases slot with
      | none =>
          refine ⟨?_, Nat.zero_le _⟩
          simp only [allocate, List.length_cons]
          omega
      | some other =>
          simp only [allocate, List.length_cons]
          omega

theorem slots_openFile_le (permitted : Bool) (path : Path) (mode : OpenMode) :
    slots (machine.openFile permitted path mode).2 ≤ slots machine + 1 ∧
      (machine.openFile permitted path mode).1 ≤ slots machine := by
  cases found : machine.inodeAt path with
  | none =>
      simp only [Machine.openFile, found, slots]
      omega
  | some inode =>
      cases permitted with
      | false =>
          rw [Machine.openFile_denied, slots]
          omega
      | true =>
          have bounds := length_allocate_le { inode, mode, offset := 0 } machine.descriptors
          simp only [Machine.openFile, found, slots]
          omega

@[simp]
theorem slots_setSlot (fd : ℤ) (slot : Option OpenFile) :
    slots (machine.setSlot fd slot) = slots machine :=
  List.length_set

@[simp]
theorem slots_lseek (permitted : Bool) (fd : ℤ) (offset : ℕ) :
    slots (machine.lseek permitted fd offset).2 = slots machine := by
  simp only [Machine.lseek]
  split
  case h_1 => exact slots_setSlot machine _ _
  case h_2 => rfl

@[simp]
theorem slots_read (limit : Option ℕ) (fd : ℤ) (count : ℕ) :
    slots (machine.read limit fd count).2 = slots machine := by
  simp only [Machine.read]
  split
  case h_1 => exact slots_setSlot machine _ _
  case h_2 => rfl

@[simp]
theorem slots_write (limit : Option ℕ) (fd : ℤ) (memory : ℕ → Byte) (count : ℕ) :
    slots (machine.write limit fd memory count).2 = slots machine := by
  simp only [Machine.write]
  split
  case h_1 => exact slots_setSlot machine _ _
  case h_2 => rfl

@[simp]
theorem slots_close (fd : ℤ) : slots (machine.close fd) = slots machine := by
  rw [Machine.close]
  split
  case h_1 => exact slots_setSlot machine _ _
  case h_2 => rfl

end Slots

section Represented

variable {server : Server} {store : Store} {name : List Byte}

theorem Represents.inodeAt (represents : Represents server store) (name : List Byte) :
    server.machine.inodeAt name = store.found name := by
  rw [Machine.inodeAt, represents.files, represents.cwd, Store.found]

theorem Represents.place (represents : Represents server store) (name : List Byte) :
    server.machine.place name = store.place name := by
  rw [Machine.place, represents.cwd, Store.place]

theorem Represents.access (represents : Represents server store) (name : List Byte) :
    server.machine.access true name < 0 ↔ store.found name = none := by
  rw [Machine.access, represents.inodeAt]
  cases store.found name <;> simp

theorem Represents.accessible (represents : Represents server store) {inode : ℕ}
    (found : store.found name = some inode) : ¬ server.machine.access true name < 0 := by
  rw [represents.access, found]
  exact Option.some_ne_none inode

theorem Represents.stMode (represents : Represents server store) {inode : ℕ}
    (found : store.found name = some inode) :
    server.machine.stMode name = store.files.mode inode := by
  rw [Machine.stMode, represents.inodeAt, found, represents.files]

theorem Represents.directoryAt (represents : Represents server store) (name : List Byte) :
    server.machine.directoryAt name = store.directory name := by
  rw [Machine.directoryAt, represents.inodeAt, represents.files, Store.directory]

theorem Represents.checked (represents : Represents server store) {answers : Answers}
    (accessible : answers.accessible = true) (name : List Byte) :
    checked answers name server.machine = store.regular name := by
  rw [Nfs.checked, if_pos accessible, represents.inodeAt, represents.files, Store.regular]

/-- A handler that keeps no reply of a read and changes the machine as the store changes. -/
theorem Represents.after (represents : Represents server store) {next : Server} {after : Store}
    (files : next.machine.files = after.files) (cwd : next.machine.cwd = after.cwd)
    (result : next.readResult = server.readResult) (shown : after.shown = store.shown) :
    Represents next after := by
  constructor
  case files => exact files
  case cwd => exact cwd
  case shown =>
    rw [result, shown]
    exact represents.shown

end Represented

section Texts

variable {text behind : List Byte}

theorem HoldsText.path {argp : Bufnode} {name : List Byte} (named : HoldsText argp.buffer name) :
    argp.path = name := by
  rw [Bufnode.path, cString_append_of_mem named.1]
  exact named.2

theorem text_print (plain : 0#8 ∉ text) (short : text.length < 1024) (result : Bufnode)
    (size : BitVec 32) (behind : List Byte) :
    Bufnode.text behind { result.print text with size } = text := by
  rw [Bufnode.text, List.append_assoc]
  exact cString_storePrefix_terminated short plain result.buffer _

theorem stored_number {result : ℤ} (above : -2 ^ 31 ≤ result) (below : result < 2 ^ 31) :
    (Reply.number result).stored = .number result := by
  rw [Reply.stored, BitVec.toInt_ofInt, Int.bmod_eq_of_le (by omega) (by omega)]

theorem rwx_shiftRight (mode : BitVec 32) (place : ℕ) : rwx (mode.toNat >>> place) =
    [if mode.getLsbD (place + 2) then 0x72#8 else 0x2D#8,
      if mode.getLsbD (place + 1) then 0x77#8 else 0x2D#8,
      if mode.getLsbD place then 0x78#8 else 0x2D#8] := by
  simp only [rwx, Nat.testBit_shiftRight, BitVec.getLsbD, Nat.add_zero]

theorem printPerms_eq_permissionText (mode : BitVec 32) : printPerms mode = permissionText mode := by
  rw [printPerms_eq, permissionText]
  simp only [List.flatMap_cons, List.flatMap_nil, rwx_shiftRight]
  rfl

theorem zero_notMem_printPerms (mode : BitVec 32) : 0#8 ∉ printPerms mode := by
  have type : typeLetter mode ≠ 0#8 := by
    rw [typeLetter]
    split <;> decide
  rw [printPerms_eq]
  simp only [List.mem_cons, List.not_mem_nil, or_false, not_or]
  refine ⟨type.symm, ?_, ?_, ?_, ?_, ?_, ?_, ?_, ?_, ?_⟩ <;> split <;> decide

end Texts

/-- The request of a call does what a command says, and opens one descriptor at most. -/
def Meets (server : Server) (store : Store) (around : Surroundings) (behind : List Byte)
    (call : Call) (deed : Deed) : Prop :=
  ∃ reply next, server.nfsRemote1 (call.request around) = some (reply, next) ∧
    call.printed behind (some reply.stored) = (store.does around deed).1 ∧
    Represents next (store.does around deed).2 ∧
    slots next.machine ≤ slots server.machine + 1

theorem Grants.of_le {around : Surroundings} {count bound : ℕ} (grants : Grants around bound)
    (fewer : count ≤ bound) : Grants around count := by
  rcases grants.moves with ⟨limit, transfer, enough⟩
  exact { grants with moves := ⟨limit, transfer, fewer.trans enough⟩ }

section Handlers

variable {server : Server} {store : Store} {around : Surroundings} {behind : List Byte}
  {name : List Byte} {argp : Bufnode}

/-- A listing that is not made, with the reason in its reply. -/
theorem meets_ls_refused (represents : Represents server store) (reason : List Byte)
    (plain : 0#8 ∉ reason) (short : reason.length < 1024)
    (refused : nfsLs1Svc around.listing argp server.lsResult server.machine =
      some (server.lsResult.reply reason (BitVec.ofInt 32 (-1)) server.machine))
    (meaning : store.does around (.ls name) = (printsListing (-1) reason, store)) :
    Meets server store around behind (.nfsLs1 argp) (.ls name) := by
  have negative : (BitVec.ofInt 32 (-1)).toInt = -1 := by decide
  rw [Meets, meaning, Call.request, Server.nfsRemote1, refused, Option.map_some]
  refine ⟨_, _, rfl, ?_, ?_, Nat.le_succ _⟩
  · simp only [Reply.stored, Call.printed, Bufnode.reply, negative, text_print plain short]
  · exact represents.after represents.files represents.cwd rfl rfl

theorem meets_ls_listed (represents : Represents server store) (obliging : Obliging around)
    (named : HoldsText argp.buffer name) (directory : (store.directory name).isSome = true) :
    Meets server store around behind (.nfsLs1 argp) (.ls name) := by
  have ⟨accessible, opens⟩ := obliging.listable
  have fits := listingFits_iff.mp obliging.namesFit
  have there : (server.machine.directoryAt argp.path).isSome = true := by
    rwa [named.path, represents.directoryAt]
  have meaning : store.does around (.ls name) =
      (printsListing (visible around.listing.names).length (listing around.listing.names),
        store) := by
    rcases Option.isSome_iff_exists.mp directory with ⟨inode, kept⟩
    rcases Option.filter_eq_some_iff.mp kept with ⟨found, kind⟩
    simp only [Store.does, found, kind, if_true]
  have size : (BitVec.ofNat 32 (visible around.listing.names).length).toInt =
      (visible around.listing.names).length := by
    have few := length_visible_le.trans_lt fits
    rw [← BitVec.ofInt_natCast, BitVec.toInt_ofInt, Int.bmod_eq_of_le (by omega) (by omega)]
  rw [Meets, meaning, Call.request, Server.nfsRemote1, nfsLs1Svc_listed accessible opens there,
    Option.map_some]
  refine ⟨_, _, rfl, ?_, ?_, ?_⟩
  · simp only [Reply.stored, Call.printed, Bufnode.reply, size,
      text_print (plain_listing obliging.plainNames) fits]
  · exact represents.after ((Machine.opendir_files _ _ _).trans represents.files)
      ((Machine.opendir_cwd _ _ _).trans represents.cwd) rfl rfl
  · exact (slots_openFile_le server.machine _ _ _).1

theorem meets_ls (represents : Represents server store) (obliging : Obliging around)
    (named : HoldsText argp.buffer name) :
    Meets server store around behind (.nfsLs1 argp) (.ls name) := by
  have accessible := obliging.listable.1
  cases found : store.found name with
  | none =>
      apply meets_ls_refused represents (literal "File not exist or access denied !")
      · decide
      · decide
      · rw [nfsLs1Svc, accessible, named.path, if_pos ((represents.access name).mpr found)]
      · simp only [Store.does, found]
  | some inode =>
      have allowed := represents.accessible found
      cases kind : isDirectory (store.files.mode inode) with
      | false =>
          apply meets_ls_refused represents (literal "Path is not a directory !")
          · decide
          · decide
          · have other : ¬ (server.machine.stMode name ≠ 0#32 ∧
                isDirectory (server.machine.stMode name) = true) := by
              rw [represents.stMode found, kind]
              exact fun both => absurd both.2 Bool.false_ne_true
            simp only [nfsLs1Svc, accessible, named.path, if_neg allowed, if_neg other]
          · simp only [Store.does, found, kind, Bool.false_eq_true, if_false]
      | true =>
          apply meets_ls_listed represents obliging named
          simp only [Store.directory, found, Option.filter_some, kind, if_true, Option.isSome_some]

/-- A handler whose result is an `int`, and fits into one. -/
theorem meets_answered (represents : Represents server store) {call : Call} {deed : Deed}
    {result : ℤ} {machine : Machine} {text : List Byte} {after : Store}
    (served : server.nfsRemote1 (call.request around) = some (server.answered (result, machine)))
    (meaning : store.does around deed = (text, after))
    (above : -2 ^ 31 ≤ result) (below : result < 2 ^ 31)
    (printed : call.printed behind (some (.number result)) = text)
    (files : machine.files = after.files) (cwd : machine.cwd = after.cwd)
    (shown : after.shown = store.shown) (few : slots machine ≤ slots server.machine + 1) :
    Meets server store around behind call deed := by
  rw [Meets, meaning]
  refine ⟨.number result, { server with machine }, served, ?_, ?_, few⟩
  · rw [stored_number above below, printed]
  · exact represents.after files cwd rfl shown

/-- A handler that answers -1 and does nothing. -/
theorem meets_failed (represents : Represents server store) {call : Call} {deed : Deed}
    {text : List Byte}
    (served : server.nfsRemote1 (call.request around) =
      some (server.answered (-1, server.machine)))
    (meaning : store.does around deed = (text, store))
    (printed : call.printed behind (some (.number (-1))) = text) :
    Meets server store around behind call deed :=
  meets_answered represents served meaning (by decide) (by decide) printed represents.files
    represents.cwd rfl (Nat.le_succ _)

theorem meets_cd (represents : Represents server store) (obliging : Obliging around)
    (named : HoldsText argp.buffer name) :
    Meets server store around behind (.nfsCd1 argp) (.cd name) := by
  have directory := represents.directoryAt name
  have served : server.nfsRemote1 ((Call.nfsCd1 argp).request around) =
      some (server.answered (server.machine.chdir true name)) := by
    rw [Call.request, Server.nfsRemote1, nfsCd1Svc, obliging.permitted, named.path]
  cases found : store.directory name with
  | none =>
      have meaning : store.does around (.cd name) = (literal "Wrong path !\n", store) := by
        simp only [Store.does, found]
      simp only [Machine.chdir, directory, found] at served
      exact meets_failed represents served meaning rfl
  | some inode =>
      have meaning : store.does around (.cd name) =
          (literal "Curr directory changed\n", { store with cwd := inode }) := by
        simp only [Store.does, found]
      simp only [Machine.chdir, directory, found] at served
      exact meets_answered represents served meaning (by decide) (by decide) rfl
        represents.files rfl rfl (Nat.le_succ _)

theorem meets_setattr {digits : List Byte} (represents : Represents server store)
    (obliging : Obliging around) (octal : ∀ byte ∈ digits, isOctalDigit byte = true)
    (named : HoldsText argp.buffer name) (mode : argp.size = permBit digits) :
    Meets server store around behind (.setattr1 argp) (.setattr name digits) := by
  have inodeAt := represents.inodeAt name
  have served : server.nfsRemote1 ((Call.setattr1 argp).request around) =
      some (server.answered (if server.machine.access true name < 0 then (-1, server.machine)
        else server.machine.chmod true name (BitVec.ofNat 32 (octalValue digits)))) := by
    rw [Call.request, Server.nfsRemote1, setattr1Svc, obliging.accessible, obliging.permitted,
      named.path, mode, permBit_eq octal]
  cases found : store.found name with
  | none =>
      have meaning : store.does around (.setattr name digits) =
          (literal "Error in setting attr\n", store) := by
        simp only [Store.does, found]
      rw [if_pos ((represents.access name).mpr found)] at served
      exact meets_failed represents served meaning rfl
  | some inode =>
      have meaning : store.does around (.setattr name digits) =
          (literal "Attr set.\n", store.setMode inode (octalValue digits)) := by
        simp only [Store.does, found]
      have allowed := represents.accessible found
      simp only [if_neg allowed, Machine.chmod, inodeAt, found, represents.files] at served
      exact meets_answered represents served meaning (by decide) (by decide) rfl rfl
        represents.cwd rfl (Nat.le_succ _)

/-- The handlers of `remove` and `mkdir`. -/
theorem meets_rename (represents : Represents server store) {call : Call} {deed : Deed}
    {failed succeeded : String}
    (served : server.nfsRemote1 (call.request around) =
      some (server.answered (server.machine.changeName around.change name)))
    (printed : ∀ result, call.printed behind (some (.number result)) =
      printsNumber failed (literal succeeded) result)
    (meaning : store.does around deed = store.rename around.change name failed succeeded) :
    Meets server store around behind call deed := by
  simp only [Machine.changeName, represents.place, represents.files] at served
  rw [Store.rename] at meaning
  cases made : around.change (store.place name) store.files with
  | none =>
      simp only [made] at served meaning
      exact meets_failed represents served meaning (printed (-1))
  | some files =>
      simp only [made] at served meaning
      exact meets_answered represents served meaning (by decide) (by decide) (printed 0) rfl
        represents.cwd rfl (Nat.le_succ _)

/-- The descriptor that `creat` returns is an `int` as long as the table is short. -/
theorem meets_touch {mode : List Byte} (represents : Represents server store)
    (named : HoldsText argp.buffer name) (few : slots server.machine < 2 ^ 31) :
    Meets server store around behind (.nfsTouch1 argp) (.touch name mode) := by
  have served : server.nfsRemote1 ((Call.nfsTouch1 argp).request around) =
      some (server.answered (server.machine.creat around.change name)) := by
    rw [Call.request, Server.nfsRemote1, nfsTouch1Svc, named.path]
  simp only [Machine.creat, represents.place, represents.files] at served
  cases made : around.change (store.place name) store.files with
  | none =>
      have meaning : store.does around (.touch name mode) =
          (literal "Error in creating dirs\n", store) := by
        simp only [Store.does, made]
      simp only [made] at served
      exact meets_failed represents served meaning rfl
  | some files =>
      simp only [made] at served
      have there : ({ server.machine with files } : Machine).inodeAt name =
          files.resolve store.cwd name := by
        rw [Machine.inodeAt, represents.cwd]
      cases resolved : files.resolve store.cwd name with
      | none =>
          have meaning : store.does around (.touch name mode) =
              (literal "Error in creating dirs\n", { store with files }) := by
            simp only [Store.does, made, resolved, Option.isSome_none, Bool.false_eq_true,
              if_false]
          simp only [Machine.openFile, there, resolved] at served
          exact meets_answered represents served meaning (by decide) (by decide) rfl rfl
            represents.cwd rfl (Nat.le_succ _)
      | some inode =>
          have meaning : store.does around (.touch name mode) =
              (literal "Created !\n", { store with files }) := by
            simp only [Store.does, made, resolved, Option.isSome_some, if_true]
          have bounds := slots_openFile_le { server.machine with files } true name .writeOnly
          have frame := Machine.openFile_files { server.machine with files } true name .writeOnly
          have place := Machine.openFile_cwd { server.machine with files } true name .writeOnly
          have natural := Machine.openFile_neg_iff { server.machine with files } true name
            .writeOnly
          rw [there, resolved, Option.isSome_some, Bool.and_self] at natural
          rcases opened : Machine.openFile { server.machine with files } true name .writeOnly with
            ⟨fd, after⟩
          rw [opened] at served bounds frame place natural
          have descriptor : ¬ fd < 0 := by
            intro below
            cases natural.mp below
          have last : fd ≤ slots server.machine := bounds.2
          refine meets_answered represents served meaning (by omega) (by omega) ?_ frame
            (place.trans represents.cwd) rfl bounds.1
          rw [Call.printed, printsNumber, if_neg descriptor]

/-- The reply of `getattr`, which covers all of the text before it. -/
theorem meets_getattr_text (represents : Represents server store) (obliging : Obliging around)
    (text : List Byte) (size : BitVec 32) (plain : 0#8 ∉ text) (short : text.length < 1024)
    (replied : getattr1Svc true around.details argp server.getattrResult server.machine =
      { server.getattrResult.print text with size })
    (meaning : store.does around (.getattr name) = (text ++ literal "\n", store)) :
    Meets server store around behind (.getattr1 argp) (.getattr name) := by
  rw [Meets, meaning, Call.request, Server.nfsRemote1, obliging.accessible, replied]
  refine ⟨_, _, rfl, ?_, ?_, Nat.le_succ _⟩
  · simp only [Reply.stored, Call.printed, text_print plain short]
  · exact represents.after represents.files represents.cwd rfl rfl

theorem meets_getattr (represents : Represents server store) (obliging : Obliging around)
    (named : HoldsText argp.buffer name) :
    Meets server store around behind (.getattr1 argp) (.getattr name) := by
  cases found : store.found name with
  | none =>
      have meaning : store.does around (.getattr name) =
          (literal "file or dir not exist !" ++ literal "\n", store) := by
        simp only [Store.does, found]
        rfl
      refine meets_getattr_text represents obliging (literal "file or dir not exist !")
        (BitVec.ofInt 32 (-1)) (by decide) (by decide) ?_ meaning
      rw [getattr1Svc, named.path, if_pos ((represents.access name).mpr found)]
      rfl
  | some inode =>
      have allowed := represents.accessible found
      have meaning : store.does around (.getattr name) =
          (printPerms (store.files.mode inode) ++ around.details ++ literal "\n", store) := by
        simp only [Store.does, found, printPerms_eq_permissionText]
      refine meets_getattr_text represents obliging
        (printPerms (store.files.mode inode) ++ around.details) 1#32 ?_ ?_ ?_ meaning
      · rw [List.mem_append, not_or]
        exact ⟨zero_notMem_printPerms _, obliging.plainDetails⟩
      · rw [List.length_append]
        exact obliging.detailsFit
      · rw [getattr1Svc, named.path, if_neg allowed, represents.stMode found]
        rfl

theorem slots_nfsWrite1Svc_le (answers : Answers) (above : List Byte) (argp : FileArgsW)
    (machine : Machine) :
    slots (nfsWrite1Svc answers above argp machine).machine ≤ slots machine + 1 := by
  simp only [nfsWrite1Svc]
  split
  case isTrue => exact Nat.le_succ _
  case isFalse =>
    split
    case isTrue =>
      simp only [slots_close, slots_write, slots_lseek]
      exact (slots_openFile_le machine _ _ _).1
    case isFalse => exact Nat.le_succ _

theorem slots_nfsRead1Svc_le (answers : Answers) (argp : FileArgsR) (result : Bufnode)
    (machine : Machine) :
    slots (nfsRead1Svc answers argp result machine).machine ≤ slots machine + 1 := by
  simp only [nfsRead1Svc]
  split
  case isTrue => exact Nat.le_succ _
  case isFalse =>
    split
    case isTrue =>
      split
      case isTrue =>
        simp only [slots_lseek]
        exact (slots_openFile_le machine _ _ _).1
      case isFalse =>
        simp only [slots_close, slots_read, slots_lseek]
        exact (slots_openFile_le machine _ _ _).1
    case isFalse => exact Nat.le_succ _

theorem meets_write {argp : FileArgsW} {message : List Byte} {offset size : ℕ}
    (represents : Represents server store) (obliging : Obliging around)
    (named : HoldsText argp.filename name) (holds : HoldsText argp.buffer message)
    (place : argp.offset.toNat = offset) (count : argp.size.toNat = size)
    (within : size ≤ message.length) (short : message.length < 1024) :
    Meets server store around behind (.nfsWrite1 argp) (.write name message offset size) := by
  let outcome := nfsWrite1Svc around.transfer around.above argp server.machine
  have grants := obliging.transfers
  have served : server.nfsRemote1 ((Call.nfsWrite1 argp).request around) =
      some (server.answered (outcome.result, outcome.machine)) := rfl
  have frame : outcome.machine.cwd = server.machine.cwd := nfsWrite1Svc_frame.1
  have few : slots outcome.machine ≤ slots server.machine + 1 := slots_nfsWrite1Svc_le _ _ _ _
  have checks := represents.checked grants.accessible name
  cases kept : store.regular name with
  | none =>
      have meaning : store.does around (.write name message offset size) =
          (literal "Wrting Error occured, File not exist or access denied.\n", store) := by
        simp only [Store.does, kept]
      have refused := @nfsWrite1Svc_refused around.transfer around.above argp server.machine
      rw [named.path_write, checks] at refused
      rcases refused (Or.inl kept) with ⟨result, _, files⟩
      have replied : outcome.result = -1 := result
      rw [replied] at served
      exact meets_answered represents served meaning (by decide) (by decide) rfl
        (files.trans represents.files) (frame.trans represents.cwd) rfl few
  | some inode =>
      have meaning : store.does around (.write name message offset size) =
          (decimal size ++ literal " byte written !\n",
            { store with files := store.files.write inode offset (message.take size) }) := by
        simp only [Store.does, kept]
      rcases checked_eq_some.mp (checks.trans kept) with ⟨_, found, regular⟩
      rcases write_granted (grants.of_le (by omega)) (by omega) found regular named count with
        ⟨result, files⟩
      rw [place, holds.take within, represents.files] at files
      have replied : outcome.result = size := result
      have natural : ¬ (size : ℤ) < 0 := by omega
      rw [replied] at served
      refine meets_answered represents served meaning (by omega) (by omega) ?_ files
        (frame.trans represents.cwd) rfl few
      rw [Call.printed, printsNumber, if_neg natural]

/-- What is left of earlier reads behind the bytes of another one. -/
def Store.reads (store : Store) (data : List Byte) : Store :=
  { store with shown := data ++ store.shown.drop data.length }

/-- The bytes that a read stores in the reply cover what was there, and zeros follow as before. -/
theorem represents_readInto (represents : Represents server store) {machine : Machine}
    {moved : Option (List Byte)} (short : (moved.getD []).length < 1024)
    (files : machine.files = store.files) (cwd : machine.cwd = store.cwd) :
    Represents { server with readResult := server.readResult.readInto moved, machine }
      (store.reads (moved.getD [])) := by
  rcases represents.shown with ⟨free, shown⟩
  have whole : store.shown.length + (free + 1) = 1024 := by
    have length := congrArg List.length shown
    rw [Vector.length_toList, List.length_append, List.length_replicate] at length
    exact length.symm
  constructor
  case files => exact files
  case cwd => exact cwd
  case shown =>
    refine ⟨free - ((moved.getD []).length - store.shown.length), ?_⟩
    have left : free + 1 - ((moved.getD []).length - store.shown.length) =
        free - ((moved.getD []).length - store.shown.length) + 1 := by
      omega
    simp only [Bufnode.readInto]
    rw [toList_storePrefix short.le, shown, List.drop_append, List.drop_replicate, left,
      ← List.append_assoc]
    rfl

/-- A reply is printed up to its first zero, which is in the buffer. -/
theorem printed_represented {result : Bufnode} {earlier : List Byte} {free : ℕ}
    (shown : result.buffer.toList = earlier ++ List.replicate (free + 1) 0#8)
    (behind : List Byte) :
    (nfsRemote1Read behind (some result)).printed =
      (ReadReport.bytesRead result.size.toInt (cString earlier)).printed := by
  have text : cString (result.buffer.toList ++ littleEndian result.size ++ behind) =
      cString earlier := by
    have zero : 0#8 ∈ result.buffer.toList := by
      rw [shown, List.replicate_succ]
      simp
    rw [List.append_assoc, cString_append_of_mem zero, shown, List.replicate_succ]
    by_cases inside : 0#8 ∈ earlier
    · rw [cString_append_of_mem inside]
    · rw [cString_append inside, cString_zero_cons, List.append_nil, cString_of_notMem inside]
  rw [nfsRemote1Read_some, text]

theorem meets_read {argp : FileArgsR} {offset size : ℕ} (represents : Represents server store)
    (obliging : Obliging around) (named : HoldsText argp.filename name)
    (place : argp.offset.toNat = offset) (count : argp.size.toNat = size) (short : size < 1024) :
    Meets server store around behind (.nfsRead1 argp) (.read name offset size) := by
  have grants := obliging.transfers
  have checks := represents.checked grants.accessible name
  have ⟨stored, _, files, cwd⟩ :=
    nfsRead1Svc_spec around.transfer argp server.readResult server.machine
  have few := slots_nfsRead1Svc_le around.transfer argp server.readResult server.machine
  have prints (moved : Option (List Byte)) (fits : (moved.getD []).length < 1024)
      (got : readable around.transfer argp server.machine = moved)
      (meaning : store.does around (.read name offset size) =
        ((ReadReport.bytesRead (returned moved)
          (cString (store.reads (moved.getD [])).shown)).printed,
          store.reads (moved.getD []))) :
      Meets server store around behind (.nfsRead1 argp) (.read name offset size) := by
    have next := @represents_readInto server store represents _ moved fits
      (files.trans represents.files) (cwd.trans represents.cwd)
    have number : (BitVec.ofInt 32 (returned moved)).toInt = returned moved := by
      rw [BitVec.toInt_ofInt, Int.bmod_eq_of_le]
      · cases moved <;> simp only [returned] <;> omega
      · cases moved <;> simp only [returned, Option.getD_some] at fits ⊢ <;> omega
    rw [got] at stored
    rw [Meets, meaning, Call.request, Server.nfsRemote1]
    refine ⟨_, _, rfl, ?_, ?_, few⟩
    · rcases next.shown with ⟨free, shown⟩
      rw [Reply.stored, Call.printed, stored, printed_represented shown]
      simp only [Bufnode.readInto, number]
    · rw [stored]
      exact next
  cases kept : store.regular name with
  | none =>
      refine prints none (by decide) ?_ ?_
      · rw [readable, named.path_read, checks, kept]
      · simp only [Store.does, kept]
        rfl
  | some inode =>
      rcases grants.moves with ⟨limit, transfer, enough⟩
      refine prints (some (slice (store.files.bytes inode) offset size)) ?_ ?_ ?_
      · exact (length_slice_le _ _ _).trans_lt short
      · simp only [readable, named.path_read, checks, kept, grants.opens, grants.seeks, transfer,
          place, count, transferred_of_grants (by omega : size ≤ limit) short.le,
          represents.files]
      · simp only [Store.does, kept]
        rfl


end Handlers

section Rounds

variable {server : Server} {store : Store} {around : Surroundings} {behind : List Byte}

theorem Deed.Allowed.filename {deed : Deed} (allowed : deed.Allowed) :
    deed.command = .read ∨ deed.command = .write →
      ∀ name ∈ deed.words.head?, name.length < 128 := by
  intro isFile name first
  cases deed with
  | write | read =>
      cases first
      exact allowed.1
  | _ => simp only [Deed.command, reduceCtorEq, or_self] at isFile

/-- A call that carries the words of a command does what the command says. -/
theorem meets_of_carries {call : Call} {deed : Deed} (represents : Represents server store)
    (obliging : Obliging around) (allowed : deed.Allowed)
    (short : ∀ word ∈ deed.words, word.length < 1024) (few : slots server.machine < 2 ^ 31)
    (carries : call.Carries deed.command deed.words) :
    Meets server store around behind call deed := by
  cases deed with
  | ls name =>
      cases call with
      | nfsLs1 argp => exact meets_ls represents obliging carries
      | _ => cases carries
  | write name message offset size =>
      cases call with
      | nfsWrite1 argp =>
          have ⟨named, holds, place, count⟩ := carries
          have ⟨_, near, within⟩ := allowed
          have bound : message.length < 1024 := short message (by simp [Deed.words])
          refine meets_write represents obliging named holds ?_ ?_ within bound
          · rw [place, toNat_typed near]
          · rw [count, toNat_typed (by omega)]
      | _ => cases carries
  | read name offset size =>
      cases call with
      | nfsRead1 argp =>
          have ⟨named, place, count⟩ := carries
          have ⟨_, near, small⟩ := allowed
          refine meets_read represents obliging named ?_ ?_ small
          · rw [place, toNat_typed near]
          · rw [count, toNat_typed (by omega)]
      | _ => cases carries
  | cd name =>
      cases call with
      | nfsCd1 argp => exact meets_cd represents obliging carries
      | _ => cases carries
  | getattr name =>
      cases call with
      | getattr1 argp => exact meets_getattr represents obliging carries
      | _ => cases carries
  | setattr name mode =>
      cases call with
      | setattr1 argp => exact meets_setattr represents obliging allowed carries.1 carries.2
      | _ => cases carries
  | remove name =>
      cases call with
      | nfsRemove1 argp =>
          refine meets_rename represents ?_ (fun _ => rfl) rfl
          rw [Call.request, Server.nfsRemote1, nfsRemove1Svc, HoldsText.path carries]
      | _ => cases carries
  | mkdir name mode =>
      cases call with
      | nfsMkdir1 argp =>
          refine meets_rename represents ?_ (fun _ => rfl) rfl
          rw [Call.request, Server.nfsRemote1, nfsMkdir1Svc, HoldsText.path carries.1]
      | _ => cases carries
  | touch name mode =>
      cases call with
      | nfsTouch1 argp => exact meets_touch represents carries.1 few
      | _ => cases carries

end Rounds

/-- A line with its command, what the system answers, and where it is typed. -/
structure Entry where
  input : Input
  deed : Deed

/-- The line says what is to be done, inside the bounds, and the system obliges. -/
structure Entry.Proper (entry : Entry) : Prop where
  typed : TypedFor entry.input.line entry.deed.command entry.deed.words
  allowed : entry.deed.Allowed
  obliging : Obliging entry.input.around

/-- What the commands print one after the other. -/
def Store.session (store : Store) : List Entry → List (List Byte) × Store
  | [] => ([], store)
  | entry :: entries =>
      let (printed, store) := store.does entry.input.around entry.deed
      let (rest, store) := store.session entries
      ((prompt ++ printed) :: rest, store)

section Sessions

variable {room : ℕ} {network : Network} {store : Store}

theorem types_does {entry : Entry} (proper : entry.Proper) (enough : 4616 ≤ room)
    (represents : Represents network.server store)
    (few : slots network.server.machine < 2 ^ 31)
    (running : (network.clients entry.input.client).isSome = true) :
    ∃ next, network.types room entry.input =
        some (prompt ++ (store.does entry.input.around entry.deed).1, next) ∧
      Represents next.server (store.does entry.input.around entry.deed).2 ∧
      slots next.server.machine ≤ slots network.server.machine + 1 ∧
      ∀ client, (network.clients client).isSome = true → (next.clients client).isSome = true := by
  have short : ∀ word ∈ entry.deed.words, word.length < 1024 := by
    intro word listed
    have inside : word ∈ typedWords entry.input.line := by
      rw [proper.typed.documented.1]
      exact List.mem_cons_of_mem _ listed
    have part := (mem_words inside).2.1
    have bound : (cString entry.input.line).length ≤ entry.input.line.length :=
      (List.takeWhile_sublist _).length_le
    have line := proper.typed.short
    exact part.length_le.trans_lt (by omega)
  rcases Option.isSome_iff_exists.mp running with ⟨before, known⟩
  rcases @call_of_typed before _ _ _ proper.typed proper.allowed.filename with
    ⟨call, made, carries⟩
  rcases @meets_of_carries _ _ _ entry.input.behind _ _ represents proper.obliging proper.allowed
    short few carries with ⟨reply, server, served, printed, next, last⟩
  have width (call : Call) : call.width ≤ room := by
    cases call <;> simp only [Call.width] <;> omega
  have replyWidth (reply : Reply) : reply.width ≤ room := by
    cases reply <;> simp only [Reply.width] <;> omega
  have remote : network.server.remote room entry.input.around call =
      some (some reply.stored, server) := by
    rw [remote_eq, if_pos (width call), served, Option.map_some]
    simp only [if_pos (replyWidth reply)]
  have round : network.types room entry.input =
      some (prompt ++ call.printed entry.input.behind (some reply.stored),
        { network with server }.withClient entry.input.client (some (before.keep call))) := by
    simp only [Network.types, known, made, remote]
    rfl
  refine ⟨_, printed ▸ round, next, last, ?_⟩
  intro client alive
  rcases eq_or_ne client entry.input.client with rfl | other
  · simp only [Network.withClient, Function.update_self, Option.isSome_some]
  · simpa only [Network.withClient, Function.update_of_ne other] using alive

/-- The rounds of a session print what the commands say, one after the other. -/
theorem session_represents (enough : 4616 ≤ room) (entries : List Entry)
    (proper : ∀ entry ∈ entries, entry.Proper) (represents : Represents network.server store)
    (running : ∀ entry ∈ entries, (network.clients entry.input.client).isSome = true)
    (few : slots network.server.machine + entries.length ≤ 2 ^ 31) :
    ∃ final, network.session room (entries.map Entry.input) =
        some ((store.session entries).1, final) ∧
      Represents final.server (store.session entries).2 := by
  induction entries generalizing network store with
  | nil => exact ⟨network, rfl, represents⟩
  | cons entry entries ih =>
      rw [List.forall_mem_cons] at proper running
      rw [List.length_cons] at few
      rcases types_does proper.1 enough represents (by omega) running.1 with
        ⟨next, round, kept, last, alive⟩
      rcases ih proper.2 kept (fun other listed => alive _ (running.2 other listed)) (by omega)
        with ⟨final, rest, finally_⟩
      refine ⟨final, ?_, finally_⟩
      simp only [List.map_cons, Network.session, round, rest, Option.bind_eq_bind,
        Option.bind_some, Store.session]

end Sessions

/-- The store at the start of the server, which has read nothing. -/
def Store.start (machine : Machine) : Store where
  files := machine.files
  cwd := machine.cwd
  shown := []

theorem represents_start (machine : Machine) :
    Represents (Server.start machine) (Store.start machine) := by
  constructor
  case files => rfl
  case cwd => rfl
  case shown => exact ⟨1023, Vector.toList_replicate⟩

def entryOf (client : ℕ) (line : String) (deed : Deed) : Entry where
  input := { client, line := literal line, around := grantedAround, behind := [] }
  deed

/-- The mode is set at one terminal and a text is written at the other, and each looks at it. -/
def twoTerminals : List Entry :=
  [entryOf 0 "setattr notes 0640" (.setattr (literal "notes") (literal "0640")),
    entryOf 1 "write notes hello 7 5" (.write (literal "notes") (literal "hello") 7 5),
    entryOf 1 "getattr notes" (.getattr (literal "notes")),
    entryOf 0 "read notes 7 5" (.read (literal "notes") 7 5)]

theorem obliging_grantedAround : Obliging grantedAround where
  listable := ⟨rfl, rfl⟩
  plainNames := List.forall_mem_nil _
  namesFit := by decide
  transfers := ⟨rfl, rfl, rfl, 4096, rfl, by decide⟩
  accessible := rfl
  permitted := rfl
  plainDetails := List.not_mem_nil
  detailsFit := by decide

theorem twoTerminals_proper : ∀ entry ∈ twoTerminals, entry.Proper := by
  have proper (entry : Entry) (single : 0xA#8 ∉ entry.input.line)
      (short : entry.input.line.length ≤ 1022)
      (documented : Documented entry.input.line entry.deed.command entry.deed.words)
      (apart : EndsInBlank entry.input.line → entry.deed.command = .write)
      (allowed : entry.deed.Allowed) (granted : entry.input.around = grantedAround) :
      entry.Proper :=
    ⟨⟨single, short, documented, apart⟩, allowed, granted ▸ obliging_grantedAround⟩
  simp only [twoTerminals, List.forall_mem_cons, List.not_mem_nil, false_imp_iff, implies_true,
    and_true]
  refine ⟨?_, ?_, ?_, ?_⟩
  · have octal : ∀ byte ∈ literal "0640", isOctalDigit byte = true := by decide
    exact proper _ (by decide) (by decide) ⟨by decide, rfl⟩ (by decide) octal rfl
  · exact proper _ (by decide) (by decide) ⟨by decide, rfl⟩ (fun _ => rfl)
      ⟨by decide, by decide, by decide⟩ rfl
  · exact proper _ (by decide) (by decide) ⟨by decide, rfl⟩ (by decide) trivial rfl
  · exact proper _ (by decide) (by decide) ⟨by decide, rfl⟩ (by decide)
      ⟨by decide, by decide, by decide⟩ rfl

end NetLab.Nfs
