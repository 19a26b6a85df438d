import NetLab.Nfs.Client
import NetLab.Posix.Directories
import NetLab.Systems.Runs

/-!
# The other handlers of `nfs_server.c`, and the server they make up

The handlers that do not transfer file contents, and the dispatch over all nine.
A request carries what the operating system answers to the calls it causes. The
three `bufnode` results are `static` and live in the server's state; an `int`
result is assigned in every request and needs no state.

A path is the string at the beginning of the argument's buffer. As for transfers,
`stored` reports which bytes, counted from the first of the result's buffer, a
listing touches; what a longer one does behind the buffer is left out.
-/

namespace NetLab.Nfs

open NetLab.Posix NetLab.Systems

/-- The `char *` that `buffer` decays to, with zeros behind the argument as for `FileArgsR`. -/
def Bufnode.path (argp : Bufnode) : Path :=
  cString (argp.buffer.toList ++ littleEndian argp.size)

/-- `sprintf(result.buffer, "%s", text)`. -/
def Bufnode.print (result : Bufnode) (text : List Byte) : Bufnode :=
  { result with buffer := storePrefix (text ++ [0#8]) result.buffer }

/-- The outcome of `access` and `opendir`, and the names that `readdir` then gives. -/
structure LsAnswers where
  accessible : Bool
  opens : Bool
  names : List (List Byte)

/-- The body of the loop over the directory, on the text in the buffer and on `size`. -/
def listName (listed : List Byte × BitVec 32) (name : List Byte) : List Byte × BitVec 32 :=
  if name.head? = some 0x2E#8 then listed
  else (listed.1 ++ name ++ [0xA#8], listed.2 + 1#32)

/-- The result after `text` was put into its buffer and `size` was set. -/
def Bufnode.reply (result : Bufnode) (text : List Byte) (size : BitVec 32) (machine : Machine) :
    ReadOutcome where
  result := { result.print text with size }
  stored := List.range (text.length + 1)
  machine

/-- `nfs_ls_1_svc`. Its loop hands what `opendir` returned to `readdir`: a null pointer ends the
process. The directory stays open. -/
def nfsLs1Svc (answers : LsAnswers) (argp result : Bufnode) (machine : Machine) :
    Option ReadOutcome :=
  if machine.access answers.accessible argp.path < 0 then
    some (result.reply (literal "File not exist or access denied !") (BitVec.ofInt 32 (-1))
      machine)
  else
    let mode := machine.stMode argp.path
    if mode ≠ 0#32 ∧ isDirectory mode then
      let (dir, machine) := machine.opendir answers.opens argp.path
      if dir < 0 then none
      else
        let (text, size) := answers.names.foldl listName ([], 0#32)
        some (result.reply text size machine)
    else
      some (result.reply (literal "Path is not a directory !") (BitVec.ofInt 32 (-1)) machine)

def nfsCd1Svc (permitted : Bool) (argp : Bufnode) (machine : Machine) : ℤ × Machine :=
  machine.chdir permitted argp.path

/-- The letter of the file's type that `print_perms` begins with. -/
def typeLetter (st : BitVec 32) : Byte :=
  match (st &&& 0xF000#32).toNat with
  | 0x8000 => 0x2D#8
  | 0x4000 => 0x64#8
  | 0x1000 => 0x7C#8
  | 0xC000 => 0x73#8
  | 0x2000 => 0x63#8
  | 0x6000 => 0x62#8
  | _ => 0x6C#8

/-- `(st & mask) ? letter : '-'`. -/
def permLetter (st mask : BitVec 32) (letter : Byte) : Byte :=
  if st &&& mask ≠ 0#32 then letter else 0x2D#8

def printPerms (st : BitVec 32) : List Byte :=
  [typeLetter st,
    permLetter st 0o400#32 0x72#8, permLetter st 0o200#32 0x77#8, permLetter st 0o100#32 0x78#8,
    permLetter st 0o040#32 0x72#8, permLetter st 0o020#32 0x77#8, permLetter st 0o010#32 0x78#8,
    permLetter st 0o004#32 0x72#8, permLetter st 0o002#32 0x77#8, permLetter st 0o001#32 0x78#8]

/-- `getattr_1_svc`. The `details` behind the permissions are the link count, the owner, the group,
the size and the date, as the library prints them: the names are printed into the buffer they
are read from. -/
def getattr1Svc (accessible : Bool) (details : List Byte) (argp result : Bufnode)
    (machine : Machine) : Bufnode :=
  if machine.access accessible argp.path < 0 then
    { result with size := BitVec.ofInt 32 (-1) }.print (literal "file or dir not exist !")
  else
    { result with size := 1#32 }.print (printPerms (machine.stMode argp.path) ++ details)

def setattr1Svc (accessible permitted : Bool) (argp : Bufnode) (machine : Machine) :
    ℤ × Machine :=
  if machine.access accessible argp.path < 0 then (-1, machine)
  else machine.chmod permitted argp.path argp.size

def nfsRemove1Svc (change : NameChange) (argp : Bufnode) (machine : Machine) : ℤ × Machine :=
  machine.changeName change argp.path

/-- `nfs_mkdir_1_svc`. What the mode in `size` does to the new directory is part of `change`. -/
def nfsMkdir1Svc (change : NameChange) (argp : Bufnode) (machine : Machine) : ℤ × Machine :=
  machine.changeName change argp.path

/-- `nfs_touch_1_svc`. The reply is the descriptor, which stays open. -/
def nfsTouch1Svc (change : NameChange) (argp : Bufnode) (machine : Machine) : ℤ × Machine :=
  machine.creat change argp.path

/-- A request for one of the nine procedures of `nfs.x`, with the answers of the system. -/
inductive Request where
  | ls (answers : LsAnswers) (argp : Bufnode)
  | write (answers : Answers) (above : List Byte) (argp : FileArgsW)
  | read (answers : Answers) (argp : FileArgsR)
  | cd (permitted : Bool) (argp : Bufnode)
  | getattr (accessible : Bool) (details : List Byte) (argp : Bufnode)
  | setattr (accessible permitted : Bool) (argp : Bufnode)
  | remove (change : NameChange) (argp : Bufnode)
  | mkdir (change : NameChange) (argp : Bufnode)
  | touch (change : NameChange) (argp : Bufnode)

/-- The name a request gives to every call that takes one. -/
def Request.path : Request → Path
  | .ls _ argp => argp.path
  | .write _ above argp => argp.path above
  | .read _ argp => argp.path
  | .cd _ argp => argp.path
  | .getattr _ _ argp => argp.path
  | .setattr _ _ argp => argp.path
  | .remove _ argp => argp.path
  | .mkdir _ argp => argp.path
  | .touch _ argp => argp.path

inductive Reply where
  | node (result : Bufnode)
  | number (result : ℤ)

/-- The server process: what it shares with the system, and its `static` results. -/
structure Server where
  machine : Machine
  lsResult : Bufnode
  readResult : Bufnode
  getattrResult : Bufnode

def Server.start (machine : Machine) : Server where
  machine
  lsResult := Bufnode.initial
  readResult := Bufnode.initial
  getattrResult := Bufnode.initial

/-- The reply of a handler whose result is an `int`. -/
def Server.answered (server : Server) (outcome : ℤ × Machine) : Reply × Server :=
  (.number outcome.1, { server with machine := outcome.2 })

/-- `nfs_remote_1` of the server: a request to its handler, unless the process ends there. -/
def Server.nfsRemote1 (server : Server) : Request → Option (Reply × Server)
  | .ls answers argp =>
      (nfsLs1Svc answers argp server.lsResult server.machine).map fun outcome =>
        (.node outcome.result,
          { server with lsResult := outcome.result, machine := outcome.machine })
  | .write answers above argp =>
      let outcome := nfsWrite1Svc answers above argp server.machine
      some (server.answered (outcome.result, outcome.machine))
  | .read answers argp =>
      let outcome := nfsRead1Svc answers argp server.readResult server.machine
      some (.node outcome.result,
        { server with readResult := outcome.result, machine := outcome.machine })
  | .cd permitted argp => some (server.answered (nfsCd1Svc permitted argp server.machine))
  | .getattr accessible details argp =>
      let result := getattr1Svc accessible details argp server.getattrResult server.machine
      some (.node result, { server with getattrResult := result })
  | .setattr accessible permitted argp =>
      some (server.answered (setattr1Svc accessible permitted argp server.machine))
  | .remove change argp => some (server.answered (nfsRemove1Svc change argp server.machine))
  | .mkdir change argp => some (server.answered (nfsMkdir1Svc change argp server.machine))
  | .touch change argp => some (server.answered (nfsTouch1Svc change argp server.machine))

/-- The server after a request. -/
def Server.serve (server : Server) (request : Request) : Option Server :=
  (server.nfsRemote1 request).map Prod.snd

end NetLab.Nfs
