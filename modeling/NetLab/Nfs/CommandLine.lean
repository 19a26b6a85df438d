import NetLab.Nfs.Permissions
import NetLab.Posix.Fields

/-!
# The command line of `nfs_client.c`

A line is taken apart by calls of `strtok` with three sets of delimiters. The first word
ends at a blank or at the newline, the others at blanks only, and the newline that the last
one keeps is removed later, where the word is used.
-/

namespace NetLab.Nfs

open NetLab.Posix NetLab.Structures

/-- The commands that make a call. -/
inductive Command where
  | ls
  | read
  | write
  | cd
  | getattr
  | setattr
  | remove
  | mkdir
  | touch
deriving DecidableEq

def Command.word : Command → List Byte
  | .ls => literal "ls"
  | .read => literal "read"
  | .write => literal "write"
  | .cd => literal "cd"
  | .getattr => literal "getattr"
  | .setattr => literal "setattr"
  | .remove => literal "remove"
  | .mkdir => literal "mkdir"
  | .touch => literal "touch"

/-- How many words follow the command, according to its usage. -/
def Command.arity : Command → ℕ
  | .ls | .cd | .getattr | .remove => 1
  | .setattr | .mkdir | .touch => 2
  | .read => 3
  | .write => 4

def getCommandType (str : List Byte) : ℤ :=
  if str = literal "ls" then 1
  else if str = literal "read" then 2
  else if str = literal "write" then 3
  else if str = literal "exit" then 0
  else if str = literal "cd" then 4
  else if str = literal "getattr" then 5
  else if str = literal "setattr" then 6
  else if str = literal "remove" then 7
  else if str = literal "mkdir" then 8
  else if str = literal "touch" then 9
  else -1

/-- The remote calls, with the argument that is sent. -/
inductive Call where
  | nfsLs1 (argp : Bufnode)
  | nfsWrite1 (argp : FileArgsW)
  | nfsRead1 (argp : FileArgsR)
  | nfsCd1 (argp : Bufnode)
  | getattr1 (argp : Bufnode)
  | setattr1 (argp : Bufnode)
  | nfsRemove1 (argp : Bufnode)
  | nfsMkdir1 (argp : Bufnode)
  | nfsTouch1 (argp : Bufnode)

/-- What comes of a line. `strcmp` is given no string if the line has no word. -/
inductive Outcome where
  | nullCommand
  | exits (text : String)
  | prints (text : String)
  | calls (call : Call)

/-- The variables in which `nfs_remote_1` makes up the arguments. -/
structure Arguments where
  nfsLs1Arg : Bufnode
  nfsWrite1Arg : FileArgsW
  nfsRead1Arg : FileArgsR
  nfsCd1Arg : Bufnode
  getattr1Arg : Bufnode
  setattr1Arg : Bufnode
  nfsRemove1Arg : Bufnode
  nfsMkdir1Arg : Bufnode
  nfsTouch1Arg : Bufnode

/-- A string after `strtok(field, "\n")`, which leaves newlines in front of what it finds. -/
def cutNewline (field : List Byte) : List Byte :=
  match strtok [0xA#8] field with
  | none => field
  | some (tok, _) => field.takeWhile (· = 0xA#8) ++ tok

def strcpy {length : ℕ} (text : List Byte) (buffer : Vector Byte length) : Vector Byte length :=
  storePrefix (text ++ [0#8]) buffer

def takeName (usage : String) (call : Bufnode → Call) (argp : Bufnode) : List (List Byte) → Outcome
  | [name] => .calls (call { argp with buffer := strcpy (cutNewline name) argp.buffer })
  | _ => .prints usage

def takeNameAndMode (usage : String) (call : Bufnode → Call) (argp : Bufnode) :
    List (List Byte) → Outcome
  | [name, mode] => .calls (call
      { buffer := strcpy (cutNewline name) argp.buffer, size := permBit (cutNewline mode) })
  | _ => .prints usage

/-- The branch for `read`. A name that is too long runs over the two numbers before they are
stored. -/
def takeRead (argp : FileArgsR) : List (List Byte) → Outcome
  | [name, offset, size] => .calls (.nfsRead1
      { filename := strcpy (cutNewline name) argp.filename
        offset := BitVec.ofInt 32 (atoiInt offset)
        size := BitVec.ofInt 32 (atoiInt size) })
  | _ => .prints "usage: read <filename> <offset> <size>\n"

/-- The branch for `write`. A name that is too long runs over `offset` and into `buffer`. -/
def takeWrite (argp : FileArgsW) : List (List Byte) → Outcome
  | [name, message, offset, size] => .calls (.nfsWrite1
      { filename := strcpy (cutNewline name) argp.filename
        offset := BitVec.ofInt 32 (atoiInt offset)
        buffer := strcpy (cutNewline message)
          (storePrefix ((cutNewline name ++ [0#8]).drop 132) argp.buffer)
        size := BitVec.ofInt 32 (atoiInt size) })
  | _ => .prints "usage: write <filename> <msg_without_blanks> <offset> <size>\n"

/-- The `switch`, with the words that are counted in `i`. -/
def Arguments.switch (before : Arguments) (savecmd : List Byte) (args : List (List Byte)) :
    Outcome :=
  match getCommandType savecmd with
  | 0 => .exits "Byee !\n"
  | 1 => takeName "usage: ls <dir_name>\n" .nfsLs1 { before.nfsLs1Arg with size := 0#32 } args
  | 2 => takeRead before.nfsRead1Arg args
  | 3 => takeWrite before.nfsWrite1Arg args
  | 4 => takeName "usage: cd <dir>\n" .nfsCd1 before.nfsCd1Arg args
  | 5 => takeName "usage: getattr <file_or_dir>\n" .getattr1 before.getattr1Arg args
  | 6 => takeNameAndMode "usage: setattr <file_or_dir> <perm_in_octal>\n" .setattr1
      before.setattr1Arg args
  | 7 => takeName "usage: remove <file_or_dir>\n" .nfsRemove1 before.nfsRemove1Arg args
  | 8 => takeNameAndMode "usage: mkdir <dir> <perm_in_octal>\n" .nfsMkdir1
      before.nfsMkdir1Arg args
  | 9 => takeNameAndMode "usage: touch <filename> <perm_in_octal>\n" .nfsTouch1
      before.nfsTouch1Arg args
  | _ => .prints "Invalid Command\n"

/-- What the client does with a line that `fgets` has read, with its newline. -/
def Arguments.nfsRemote1Line (before : Arguments) (line : List Byte) : Outcome :=
  match strtok (literal " \n") (cString (line ++ [0xA#8])) with
  | none => .nullCommand
  | some (savecmd, rest) => before.switch savecmd (fields (literal " ") 4 rest)

section Strings

variable {text : List Byte}

theorem notMem_newline (plain : 0xA#8 ∉ text) : ∀ byte ∈ text, byte ∉ [0xA#8] := by
  intro byte inside newline
  rw [List.mem_singleton] at newline
  exact plain (newline ▸ inside)

theorem takeWhile_newline (nonempty : text ≠ []) (plain : 0xA#8 ∉ text) (rest : List Byte) :
    (text ++ rest).takeWhile (· = 0xA#8) = [] := by
  cases text with
  | nil => exact absurd rfl nonempty
  | cons first text =>
      have head : first ≠ 0xA#8 := by
        rintro rfl
        exact plain List.mem_cons_self
      exact List.takeWhile_cons_of_neg (by simpa using head)

theorem cutNewline_of_notMem (plain : 0xA#8 ∉ text) : cutNewline text = text := by
  rcases eq_or_ne text [] with rfl | nonempty
  · rfl
  · have front := takeWhile_newline nonempty plain []
    rw [List.append_nil] at front
    rw [cutNewline, strtok_last nonempty (notMem_newline plain)]
    simp only [front, List.nil_append]

theorem cutNewline_append (nonempty : text ≠ []) (plain : 0xA#8 ∉ text) :
    cutNewline (text ++ [0xA#8]) = text := by
  rw [cutNewline, strtok_field nonempty (notMem_newline plain) (List.mem_singleton_self _)]
  simp only [takeWhile_newline nonempty plain, List.nil_append]

end Strings

section Branches

variable {usage : String} {make : Bufnode → Call} {argp : Bufnode} {tokens : List (List Byte)}
  {call : Call}

theorem takeName_eq_calls_iff : takeName usage make argp tokens = .calls call ↔
    ∃ name, tokens = [name] ∧
      call = make { argp with buffer := strcpy (cutNewline name) argp.buffer } := by
  constructor
  · intro made
    rw [takeName.eq_def] at made
    split at made
    · cases made
      exact ⟨_, rfl, rfl⟩
    · cases made
  · rintro ⟨_, rfl, rfl⟩
    rfl

theorem takeNameAndMode_eq_calls_iff : takeNameAndMode usage make argp tokens = .calls call ↔
    ∃ name mode, tokens = [name, mode] ∧ call = make
      { buffer := strcpy (cutNewline name) argp.buffer, size := permBit (cutNewline mode) } := by
  constructor
  · intro made
    rw [takeNameAndMode.eq_def] at made
    split at made
    · cases made
      exact ⟨_, _, rfl, rfl⟩
    · cases made
  · rintro ⟨_, _, rfl, rfl⟩
    rfl

theorem takeRead_eq_calls_iff {argp : FileArgsR} : takeRead argp tokens = .calls call ↔
    ∃ name offset size, tokens = [name, offset, size] ∧ call = .nfsRead1
      { filename := strcpy (cutNewline name) argp.filename
        offset := BitVec.ofInt 32 (atoiInt offset)
        size := BitVec.ofInt 32 (atoiInt size) } := by
  constructor
  · intro made
    rw [takeRead.eq_def] at made
    split at made
    · cases made
      exact ⟨_, _, _, rfl, rfl⟩
    · cases made
  · rintro ⟨_, _, _, rfl, rfl⟩
    rfl

theorem takeWrite_eq_calls_iff {argp : FileArgsW} : takeWrite argp tokens = .calls call ↔
    ∃ name message offset size, tokens = [name, message, offset, size] ∧ call = .nfsWrite1
      { filename := strcpy (cutNewline name) argp.filename
        offset := BitVec.ofInt 32 (atoiInt offset)
        buffer := strcpy (cutNewline message)
          (storePrefix ((cutNewline name ++ [0#8]).drop 132) argp.buffer)
        size := BitVec.ofInt 32 (atoiInt size) } := by
  constructor
  · intro made
    rw [takeWrite.eq_def] at made
    split at made
    · cases made
      exact ⟨_, _, _, _, rfl, rfl⟩
    · cases made
  · rintro ⟨_, _, _, _, rfl, rfl⟩
    rfl

end Branches

section Switch

variable {before : Arguments} {command : Command} {tokens : List (List Byte)} {call : Call}

def Command.code : Command → ℤ
  | .ls => 1
  | .read => 2
  | .write => 3
  | .cd => 4
  | .getattr => 5
  | .setattr => 6
  | .remove => 7
  | .mkdir => 8
  | .touch => 9

theorem getCommandType_word (command : Command) : getCommandType command.word = command.code := by
  cases command <;> decide

theorem getCommandType_other {str : List Byte} (other : ∀ command, str ≠ Command.word command) :
    getCommandType str = 0 ∨ getCommandType str = -1 := by
  have apart (command : Command) (text : String) (same : command.word = literal text) :
      str ≠ literal text := same ▸ other command
  rw [getCommandType, if_neg (apart .ls "ls" rfl), if_neg (apart .read "read" rfl),
    if_neg (apart .write "write" rfl), if_neg (apart .cd "cd" rfl),
    if_neg (apart .getattr "getattr" rfl), if_neg (apart .setattr "setattr" rfl),
    if_neg (apart .remove "remove" rfl), if_neg (apart .mkdir "mkdir" rfl),
    if_neg (apart .touch "touch" rfl)]
  split
  case isTrue => exact Or.inl rfl
  case isFalse => exact Or.inr rfl

theorem switch_other {str : List Byte} (other : ∀ command, str ≠ Command.word command) :
    before.switch str tokens ≠ .nullCommand ∧ ∀ call, before.switch str tokens ≠ .calls call := by
  rw [Arguments.switch]
  rcases getCommandType_other other with exits | invalid
  · simp [exits]
  · simp [invalid]

theorem switch_calls_iff : (∃ call, before.switch command.word tokens = .calls call) ↔
    tokens.length = command.arity := by
  rw [Arguments.switch, getCommandType_word]
  cases command
  case read =>
    simp only [Command.code, takeRead_eq_calls_iff, Command.arity, List.length_eq_three]
    simp
  case write =>
    simp only [Command.code, takeWrite_eq_calls_iff, Command.arity]
    constructor
    · rintro ⟨_, _, _, _, _, rfl, _⟩
      rfl
    · intro four
      match tokens, four with
      | [name, message, offset, size], _ => exact ⟨_, name, message, offset, size, rfl, rfl⟩
  case ls | cd | getattr | remove =>
    simp only [Command.code, takeName_eq_calls_iff, Command.arity, List.length_eq_one_iff]
    simp
  case setattr | mkdir | touch =>
    simp only [Command.code, takeNameAndMode_eq_calls_iff, Command.arity, List.length_eq_two]
    simp

theorem switch_ne_null (str : List Byte) : before.switch str tokens ≠ .nullCommand := by
  rw [Arguments.switch]
  split
  case h_1 | h_11 => exact nofun
  case h_3 => rw [takeRead.eq_def]; split <;> exact nofun
  case h_4 => rw [takeWrite.eq_def]; split <;> exact nofun
  case h_2 | h_5 | h_6 | h_8 => rw [takeName.eq_def]; split <;> exact nofun
  case h_7 | h_9 | h_10 => rw [takeNameAndMode.eq_def]; split <;> exact nofun

end Switch

end NetLab.Nfs
