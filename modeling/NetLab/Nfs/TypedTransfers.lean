import NetLab.Nfs.Remote
import NetLab.Nfs.Transfers
import NetLab.Nfs.Usage

/-!
# A file through the whole system

A line with a `write` command, a line with a `read` command for the same place, and all that is in
between: the two calls, their messages, the handlers and the reply that is printed.
-/

namespace NetLab.Nfs

open NetLab.Posix NetLab.Structures

/-- The line is for the client as its usage says: it is as short as `fgets` reads it, and no newline
is taken for a further word. -/
structure TypedFor (line : List Byte) (command : Command) (args : List (List Byte)) : Prop where
  single : 0xA#8 ∉ line
  short : line.length ≤ 1022
  documented : Documented line command args
  apart : EndsInBlank line → command = .write

/-- The system answers the calls for a transfer of `count` bytes, and moves all of them. -/
structure Grants (around : Surroundings) (count : ℕ) : Prop where
  accessible : around.transfer.accessible = true
  opens : around.transfer.opens = true
  seeks : around.transfer.seeks = true
  moves : ∃ limit, around.transfer.transfer = some limit ∧ count ≤ limit

section Lines

variable {before : Arguments} {line name message : List Byte} {command : Command}
  {args : List (List Byte)} {offset size : ℕ}

theorem call_of_typed (typed : TypedFor line command args)
    (filename : command = .read ∨ command = .write → ∀ name ∈ args.head?, name.length < 128) :
    ∃ call, before.nfsRemote1Line line = .calls call ∧ call.Carries command args := by
  have arities : command.arity ≤ 4 ∧ (command = .write → command.arity = 4) := by
    cases command <;> decide
  have counted : min 4 (args.length + (newlineWord line).length) = command.arity ↔
      args.length = command.arity := by
    have whole := typed.documented.2
    have apart := typed.apart
    rw [newlineWord]
    split
    case isTrue blank =>
      have four := arities.2 (apart blank)
      rw [List.length_singleton]
      omega
    case isFalse =>
      rw [List.length_nil]
      omega
  have follows : FollowsUsage before line :=
    (followsUsage_command_iff typed.single typed.short typed.documented.1).mpr
      ⟨counted, fun _ => filename⟩
  rcases follows.calls_iff.mpr ⟨command, args, typed.documented⟩ with ⟨call, made⟩
  exact ⟨call, made, follows.carries command args call typed.documented made⟩

theorem toNat_typed {number : ℕ} (fits : number < 2 ^ 31) :
    (BitVec.ofInt 32 (atoiInt (decimal number))).toNat = number := by
  have value : atoiInt (decimal number) = number := by
    rw [atoiInt_eq] <;> rw [atoi_decimal] <;> omega
  rw [value, BitVec.ofInt_natCast, BitVec.toNat_ofNat]
  omega

theorem write_of_typed
    (typed : TypedFor line .write [name, message, decimal offset, decimal size])
    (filename : name.length < 128) (near : offset < 2 ^ 31) (small : size < 2 ^ 31) :
    ∃ argp, before.nfsRemote1Line line = .calls (.nfsWrite1 argp) ∧
      HoldsText argp.filename name ∧ HoldsText argp.buffer message ∧
      argp.offset.toNat = offset ∧ argp.size.toNat = size := by
  have short : ∀ head ∈ [name, message, decimal offset, decimal size].head?,
      head.length < 128 := by
    simpa using filename
  rcases @call_of_typed before _ _ _ typed (fun _ => short) with ⟨call, made, carries⟩
  cases call with
  | nfsWrite1 argp =>
      have ⟨named, holds, place, count⟩ := carries
      refine ⟨argp, made, named, holds, ?_, ?_⟩
      · rw [place, toNat_typed near]
      · rw [count, toNat_typed small]
  | _ => cases carries

theorem read_of_typed (typed : TypedFor line .read [name, decimal offset, decimal size])
    (filename : name.length < 128) (near : offset < 2 ^ 31) (small : size < 2 ^ 31) :
    ∃ argp, before.nfsRemote1Line line = .calls (.nfsRead1 argp) ∧
      HoldsText argp.filename name ∧ argp.offset.toNat = offset ∧ argp.size.toNat = size := by
  have short : ∀ head ∈ [name, decimal offset, decimal size].head?, head.length < 128 := by
    simpa using filename
  rcases @call_of_typed before _ _ _ typed (fun _ => short) with ⟨call, made, carries⟩
  cases call with
  | nfsRead1 argp =>
      have ⟨named, place, count⟩ := carries
      refine ⟨argp, made, named, ?_, ?_⟩
      · rw [place, toNat_typed near]
      · rw [count, toNat_typed small]
  | _ => cases carries

end Lines

section Records

theorem HoldsText.path_write {argp : FileArgsW} {name : List Byte}
    (named : HoldsText argp.filename name) (above : List Byte) : argp.path above = name := by
  rw [FileArgsW.path, List.append_assoc, cString_append_of_mem named.1]
  exact named.2

theorem HoldsText.path_read {argp : FileArgsR} {name : List Byte}
    (named : HoldsText argp.filename name) : argp.path = name := by
  rw [FileArgsR.path, List.append_assoc, cString_append_of_mem named.1]
  exact named.2

/-- The text at the beginning of a buffer. -/
theorem HoldsText.take {length count : ℕ} {field : Vector Byte length} {text : List Byte}
    (holds : HoldsText field text) (short : count ≤ text.length) :
    field.toList.take count = text.take count := by
  have whole := holds.2
  rw [cString] at whole
  rw [← List.takeWhile_append_dropWhile (p := fun byte => decide (byte ≠ 0#8)) (l := field.toList),
    whole, List.take_append_of_le_length short]

/-- What is printed of a reply whose bytes behind the data are still zero. -/
theorem printed_of_fresh {data behind : List Byte} (plain : 0#8 ∉ data)
    (short : data.length < 1024) :
    (nfsRemote1Read behind (some (Bufnode.initial.readInto (some data)))).printed =
      literal "Read " ++ literal (toString data.length) ++ literal " bytes\n" ++ data ++
        literal "\n" := by
  have zero : Bufnode.initial.buffer[data.length] = 0#8 := by
    simp [Bufnode.initial]
  have text := cString_storePrefix_of_zero short plain zero
    (littleEndian (BitVec.ofInt 32 (data.length : ℤ)) ++ behind)
  have size : (BitVec.ofInt 32 (data.length : ℤ)).toInt = data.length := by
    rw [BitVec.toInt_ofInt, Int.bmod_eq_of_le] <;> omega
  rw [nfsRemote1Read_some, ReadReport.printed]
  simp only [Bufnode.readInto, Option.getD_some, returned, List.append_assoc, text, size]
  rfl

end Records

section Handlers

variable {around : Surroundings} {machine : Machine} {inode size : ℕ} {name : List Byte}

theorem checked_of_grants {count : ℕ} (grants : Grants around count)
    (found : machine.inodeAt name = some inode)
    (regular : isRegular (machine.files.mode inode) = true) :
    checked around.transfer name machine = some inode :=
  checked_eq_some.mpr ⟨grants.accessible, found, regular⟩

theorem transferred_of_grants {limit count : ℕ} (fits : count ≤ limit) (small : count ≤ 1024) :
    transferred limit count = count := by
  have cap : 1024 ≤ transferCap := by decide
  simp only [transferred]
  omega

theorem write_granted {argp : FileArgsW} (grants : Grants around size) (small : size ≤ 1024)
    (found : machine.inodeAt name = some inode)
    (regular : isRegular (machine.files.mode inode) = true)
    (named : HoldsText argp.filename name) (count : argp.size.toNat = size) :
    (nfsWrite1Svc around.transfer around.above argp machine).result = size ∧
      (nfsWrite1Svc around.transfer around.above argp machine).machine.files =
        machine.files.write inode argp.offset.toNat (argp.buffer.toList.take size) := by
  have passed : checked around.transfer (argp.path around.above) machine = some inode := by
    rw [named.path_write]
    exact checked_of_grants grants found regular
  rcases grants.moves with ⟨limit, transfer, fits⟩
  have ⟨result, _, _⟩ := nfsWrite1Svc_written passed grants.opens transfer
  rw [count, transferred_of_grants fits small] at result
  have written : WriteGranted around.transfer around.above argp machine inode :=
    ⟨passed, grants.opens, grants.seeks, limit, transfer⟩
  exact ⟨result, (files_after_write written (count.trans_le small) result).2⟩

theorem read_granted {argp : FileArgsR} {data : List Byte} (result : Bufnode)
    (grants : Grants around size) (small : size ≤ 1024)
    (found : machine.inodeAt name = some inode)
    (regular : isRegular (machine.files.mode inode) = true)
    (named : HoldsText argp.filename name) (count : argp.size.toNat = size)
    (held : slice (machine.files.bytes inode) argp.offset.toNat size = data) :
    (nfsRead1Svc around.transfer argp result machine).result = result.readInto (some data) ∧
      (nfsRead1Svc around.transfer argp result machine).machine.files = machine.files := by
  have passed : checked around.transfer argp.path machine = some inode := by
    rw [named.path_read]
    exact checked_of_grants grants found regular
  rcases grants.moves with ⟨limit, transfer, fits⟩
  have got : readable around.transfer argp machine = some data := by
    simp only [readable, passed, grants.opens, grants.seeks, transfer, count,
      transferred_of_grants fits small, held]
  have spec := nfsRead1Svc_spec around.transfer argp result machine
  rw [got] at spec
  exact ⟨spec.1, spec.2.2.1⟩

end Handlers

section Calls

variable {server : Server} {room : ℕ} {around : Surroundings}

theorem remote_write {argp : FileArgsW} {size : ℕ} (enough : 4616 ≤ room) (small : size ≤ 1024)
    (moved : (nfsWrite1Svc around.transfer around.above argp server.machine).result = size) :
    server.remote room around (.nfsWrite1 argp) = some (some (.number size),
      { server with
        machine := (nfsWrite1Svc around.transfer around.above argp server.machine).machine }) := by
  have argument : (Call.nfsWrite1 argp).width ≤ room := enough
  have result : (Reply.number size).width ≤ room := (by decide : 4 ≤ 4616).trans enough
  have whole : (BitVec.ofInt 32 (size : ℤ)).toInt = size := by
    rw [BitVec.toInt_ofInt, Int.bmod_eq_of_le] <;> omega
  rw [remote_eq, if_pos argument]
  simp only [Call.request, Server.nfsRemote1, Server.answered, Option.map_some, moved,
    if_pos result, Reply.stored, whole]

theorem remote_read {argp : FileArgsR} (enough : 4616 ≤ room) :
    server.remote room around (.nfsRead1 argp) =
      let outcome := nfsRead1Svc around.transfer argp server.readResult server.machine
      some (some (.node outcome.result),
        { server with readResult := outcome.result, machine := outcome.machine }) := by
  have argument : (Call.nfsRead1 argp).width ≤ room := (by decide : 520 ≤ 4616).trans enough
  have result (reply : Bufnode) : (Reply.node reply).width ≤ room :=
    (by decide : 4100 ≤ 4616).trans enough
  rw [remote_eq, if_pos argument]
  simp only [Call.request, Server.nfsRemote1, Option.map_some, result, if_true, Reply.stored]

end Calls

/-- What somebody has written by a `write` command, of a message without blanks, a `read` command
for the same name, place and number of bytes prints, if the server has read nothing since it was
started and cuts no transfer short; and the file holds it. -/
theorem typed_write_then_read {server : Server} {room offset size inode : ℕ}
    {name message writeLine readLine : List Byte} {writing reading : Surroundings}
    (enough : 4616 ≤ room)
    (writes : TypedFor writeLine .write [name, message, decimal offset, decimal size])
    (reads : TypedFor readLine .read [name, decimal offset, decimal size])
    (filename : name.length < 128) (near : offset < 2 ^ 31) (within : size ≤ message.length)
    (found : server.machine.inodeAt name = some inode)
    (regular : isRegular (server.machine.files.mode inode) = true)
    (writeGrants : Grants writing size) (readGrants : Grants reading size)
    (fresh : server.readResult = Bufnode.initial) (before again : Arguments)
    (behind : List Byte) :
    ∃ first second written final reply,
      before.nfsRemote1Line writeLine = .calls first ∧
      server.remote room writing first = some (some (.number size), written) ∧
      again.nfsRemote1Line readLine = .calls second ∧
      written.remote room reading second = some (some (.node reply), final) ∧
      (nfsRemote1Read behind (some reply)).printed =
        literal "Read " ++ literal (toString size) ++ literal " bytes\n" ++ message.take size ++
          literal "\n" ∧
      final.machine.files =
        server.machine.files.write inode offset (message.take size) := by
  have plain : 0#8 ∉ message ∧ message.length < 1024 := by
    have listed : message ∈ typedWords writeLine := by
      rw [writes.documented.1]
      simp
    have part := (mem_words listed).2.1
    have bound : (cString writeLine).length ≤ writeLine.length :=
      (List.takeWhile_sublist _).length_le
    have short := writes.short
    refine ⟨?_, part.length_le.trans_lt (by omega)⟩
    intro zero
    simpa using List.mem_takeWhile_imp (part.subset zero)
  have length : (message.take size).length = size := by
    rw [List.length_take]
    omega
  rcases @write_of_typed before _ _ _ _ _ writes filename near (by omega) with
    ⟨writeArgp, first, namedWrite, holds, place, count⟩
  rcases @read_of_typed again _ _ _ _ reads filename near (by omega) with
    ⟨readArgp, second, namedRead, placeRead, countRead⟩
  have stored := write_granted writeGrants (by omega) found regular namedWrite count
  rw [place, holds.take within] at stored
  rcases stored with ⟨moved, files⟩
  let after := (nfsWrite1Svc writing.transfer writing.above writeArgp server.machine).machine
  have still : after.inodeAt name = some inode := by
    rcases @nfsWrite1Svc_frame writing.transfer writing.above writeArgp server.machine with
      ⟨cwd, resolve⟩
    rw [Machine.inodeAt, cwd, resolve]
    exact found
  have same : isRegular (after.files.mode inode) = true := by
    simp only [after, files]
    exact regular
  have held : slice (after.files.bytes inode) readArgp.offset.toNat size = message.take size := by
    have returned := slice_overwrite (server.machine.files.bytes inode) offset (message.take size)
    rw [length] at returned
    simp only [after, files, FileSystem.write, Function.update_self, placeRead, returned]
  rcases read_granted server.readResult readGrants (by omega) still same namedRead countRead held
    with ⟨reply, kept⟩
  have shown := @printed_of_fresh _ behind (fun zero => plain.1 (List.mem_of_mem_take zero))
    (length.trans_lt (within.trans_lt plain.2))
  rw [length, ← fresh, ← reply] at shown
  refine ⟨.nfsWrite1 writeArgp, .nfsRead1 readArgp, { server with machine := after }, _, _, first,
    remote_write enough (by omega) moved, second, remote_read enough, shown, ?_⟩
  exact kept.trans files

/-- Five letters behind a gap of seven bytes. -/
theorem hello_written_and_read :
    ∃ first second written final reply,
      zeroArguments.nfsRemote1Line (literal "write notes hello 7 5") = .calls first ∧
      (Server.start (oneFile [])).remote 8800 grantedAround first =
        some (some (.number (5 : ℕ)), written) ∧
      zeroArguments.nfsRemote1Line (literal "read notes 7 5") = .calls second ∧
      written.remote 8800 grantedAround second = some (some (.node reply), final) ∧
      (nfsRemote1Read [] (some reply)).printed =
        literal "Read " ++ literal (toString 5) ++ literal " bytes\n" ++
          (literal "hello").take 5 ++ literal "\n" ∧
      final.machine.files =
        (oneFile []).files.write 0 7 ((literal "hello").take 5) := by
  have grants : Grants grantedAround 5 := ⟨rfl, rfl, rfl, 4096, rfl, by decide⟩
  have writes : TypedFor (literal "write notes hello 7 5") .write
      [literal "notes", literal "hello", decimal (7 : ℕ), decimal (5 : ℕ)] :=
    ⟨by decide, by decide, ⟨by decide, rfl⟩, fun _ => rfl⟩
  have reads : TypedFor (literal "read notes 7 5") .read
      [literal "notes", decimal (7 : ℕ), decimal (5 : ℕ)] :=
    ⟨by decide, by decide, ⟨by decide, rfl⟩, by decide⟩
  exact typed_write_then_read (by decide) writes reads (by decide) (by decide) (by decide) rfl
    (by decide) grants grants rfl zeroArguments zeroArguments []

end NetLab.Nfs
