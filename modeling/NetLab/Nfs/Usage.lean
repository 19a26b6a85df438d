import NetLab.Nfs.CommandLine

/-!
# Lines that are understood

A line should make a call when it is a command with the words that its usage asks for.
The client counts the tokens behind the command, of which it looks at four, and the newline
is one of them if a blank is before it.
-/

namespace NetLab.Nfs

open NetLab.Posix NetLab.Structures

/-- The words of a line, which as a string ends at its first zero. -/
def typedWords (line : List Byte) : List (List Byte) :=
  words (separates (literal " ")) (cString line)

/-- The line is a command with as many words as its usage asks for. -/
def Documented (line : List Byte) (command : Command) (args : List (List Byte)) : Prop :=
  typedWords line = command.word :: args ∧ args.length = command.arity

def HoldsText {length : ℕ} (field : Vector Byte length) (text : List Byte) : Prop :=
  0#8 ∈ field.toList ∧ cString field.toList = text

/-- The call for a command, with its words in the argument. -/
def Call.Carries : Call → Command → List (List Byte) → Prop
  | .nfsLs1 argp, .ls, [name] => HoldsText argp.buffer name
  | .nfsCd1 argp, .cd, [name] => HoldsText argp.buffer name
  | .getattr1 argp, .getattr, [name] => HoldsText argp.buffer name
  | .nfsRemove1 argp, .remove, [name] => HoldsText argp.buffer name
  | .setattr1 argp, .setattr, [name, mode] =>
      HoldsText argp.buffer name ∧ argp.size = permBit mode
  | .nfsMkdir1 argp, .mkdir, [name, mode] =>
      HoldsText argp.buffer name ∧ argp.size = permBit mode
  | .nfsTouch1 argp, .touch, [name, mode] =>
      HoldsText argp.buffer name ∧ argp.size = permBit mode
  | .nfsRead1 argp, .read, [name, offset, size] =>
      HoldsText argp.filename name ∧ argp.offset = BitVec.ofInt 32 (atoiInt offset) ∧
        argp.size = BitVec.ofInt 32 (atoiInt size)
  | .nfsWrite1 argp, .write, [name, message, offset, size] =>
      HoldsText argp.filename name ∧ HoldsText argp.buffer message ∧
        argp.offset = BitVec.ofInt 32 (atoiInt offset) ∧
        argp.size = BitVec.ofInt 32 (atoiInt size)
  | _, _, _ => False

/-- The client makes a call for the documented lines and for no others, with the words of the line
in it, and never passes a null pointer. -/
structure FollowsUsage (before : Arguments) (line : List Byte) : Prop where
  nonnull : before.nfsRemote1Line line ≠ .nullCommand
  calls_iff : (∃ call, before.nfsRemote1Line line = .calls call) ↔
    ∃ command args, Documented line command args
  carries : ∀ command args call, Documented line command args →
    before.nfsRemote1Line line = .calls call → call.Carries command args

def EndsInBlank (line : List Byte) : Prop :=
  0#8 ∉ line ∧ endsInWord (separates (literal " ")) line = false

instance (line : List Byte) : Decidable (EndsInBlank line) :=
  inferInstanceAs (Decidable (_ ∧ _))

/-- The lines that are understood: the line has a word, a `write` has no more than four behind it,
the newline behind a blank is not counted as a word that the command needs or must not have, and
the file name of a `read` or `write` has less than 128 characters. -/
structure Understood (line : List Byte) : Prop where
  command : typedWords line ≠ []
  capped : ∀ args, typedWords line = Command.write.word :: args → args.length ≤ 4
  newline : EndsInBlank line → ∀ command args, typedWords line = Command.word command :: args →
    args.length + 1 ≠ command.arity ∧ (args.length = command.arity → command = .write)
  filename : ∀ command name args, command = .read ∨ command = .write →
    Documented line command (name :: args) → name.length < 128

/-- The words as which the tokens are used, where a newline is removed or not read. -/
structure UsedAs (tokens typed : List (List Byte)) : Prop where
  cut : tokens.map cutNewline = typed
  numbers : ∀ token ∈ tokens, atoiInt (cutNewline token) = atoiInt token

section UsedAs

variable {tokens others typed more : List (List Byte)} {word : List Byte}

theorem UsedAs.append (first : UsedAs tokens typed) (second : UsedAs others more) :
    UsedAs (tokens ++ others) (typed ++ more) := by
  constructor
  case cut => rw [List.map_append, first.cut, second.cut]
  case numbers => exact List.forall_mem_append.mpr ⟨first.numbers, second.numbers⟩

theorem UsedAs.take (used : UsedAs tokens typed) (count : ℕ) :
    UsedAs (tokens.take count) (typed.take count) := by
  constructor
  case cut => rw [List.map_take, used.cut]
  case numbers => exact fun token listed => used.numbers token (List.mem_of_mem_take listed)

theorem usedAs_self (kept : ∀ token ∈ tokens, cutNewline token = token) :
    UsedAs tokens tokens := by
  constructor
  case cut => exact (List.map_congr_left kept).trans (List.map_id' tokens)
  case numbers =>
    intro token listed
    rw [kept token listed]

theorem usedAs_newline : UsedAs [[0xA#8]] [[0xA#8]] := by
  apply usedAs_self
  intro token listed
  rw [List.mem_singleton.mp listed]
  rfl

theorem usedAs_last (nonempty : word ≠ []) (plain : 0xA#8 ∉ word) :
    UsedAs [word ++ [0xA#8]] [word] := by
  have cut := cutNewline_append nonempty plain
  constructor
  case cut => rw [List.map_singleton, cut]
  case numbers =>
    intro token listed
    rw [List.mem_singleton.mp listed, cut, atoiInt, atoiInt, atoi_append_space rfl]

end UsedAs

section Carries

variable {before : Arguments} {command : Command} {tokens : List (List Byte)} {call : Call}

theorem holdsText_strcpy_iff {length : ℕ} {text : List Byte} (plain : 0#8 ∉ text)
    (buffer : Vector Byte length) : HoldsText (strcpy text buffer) text ↔ text.length < length := by
  constructor
  · rintro ⟨terminated, -⟩
    by_contra long
    have stored : (strcpy text buffer).toList.take length = (text ++ [0#8]).take length := by
      apply take_toList_storePrefix
      · rw [List.length_append]
        omega
      · exact le_rfl
    rw [List.take_of_length_le (by simp), List.take_append_of_le_length (by omega)] at stored
    rw [stored] at terminated
    exact plain (List.mem_of_mem_take terminated)
  · intro fits
    refine ⟨?_, cString_storePrefix_text fits plain buffer⟩
    rw [strcpy, toList_storePrefix (by simpa using fits)]
    simp

/-- The words are in the argument, as far as they fit into their fields. -/
theorem carries_iff {typed : List (List Byte)} (used : UsedAs tokens typed)
    (texts : ∀ word ∈ typed, 0#8 ∉ word ∧ word.length < 1024)
    (made : before.switch command.word tokens = .calls call) :
    call.Carries command typed ↔
      (command = .read ∨ command = .write → ∀ name ∈ typed.head?, name.length < 128) := by
  rcases used with ⟨rfl, numbers⟩
  rw [Arguments.switch, getCommandType_word] at made
  cases command
  case read =>
    rcases takeRead_eq_calls_iff.mp made with ⟨name, offset, size, rfl, rfl⟩
    simp only [List.map_cons, List.map_nil, List.forall_mem_cons] at texts numbers
    simp [Call.Carries, holdsText_strcpy_iff texts.1.1, numbers]
  case write =>
    rcases takeWrite_eq_calls_iff.mp made with ⟨name, message, offset, size, rfl, rfl⟩
    simp only [List.map_cons, List.map_nil, List.forall_mem_cons] at texts numbers
    simp [Call.Carries, holdsText_strcpy_iff texts.1.1, holdsText_strcpy_iff texts.2.1.1,
      texts.2.1.2, numbers]
  case ls | cd | getattr | remove =>
    rcases takeName_eq_calls_iff.mp made with ⟨name, rfl, rfl⟩
    simp only [List.map_cons, List.map_nil, List.forall_mem_cons] at texts
    simp [Call.Carries, holdsText_strcpy_iff texts.1.1, texts.1.2]
  case setattr | mkdir | touch =>
    rcases takeNameAndMode_eq_calls_iff.mp made with ⟨name, mode, rfl, rfl⟩
    simp only [List.map_cons, List.map_nil, List.forall_mem_cons] at texts
    simp [Call.Carries, holdsText_strcpy_iff texts.1.1, texts.1.2]

end Carries

section Tokens

variable {line : List Byte}

def lineEnd (line : List Byte) : List Byte :=
  if 0#8 ∈ line then [] else [0xA#8]

theorem cString_line (line : List Byte) :
    cString (line ++ [0xA#8]) = cString line ++ lineEnd line := by
  by_cases zero : 0#8 ∈ line
  · rw [cString_append_of_mem zero, lineEnd, if_pos zero, List.append_nil]
  · rw [cString_append zero, lineEnd, if_neg zero, cString_of_notMem zero]
    rfl

theorem notMem_cString {byte : Byte} (plain : byte ∉ line) : byte ∉ cString line :=
  fun inside => plain (List.takeWhile_sublist _ |>.subset inside)

theorem strtok_line (single : 0xA#8 ∉ line) :
    strtok (literal " \n") (cString (line ++ [0xA#8])) =
      (nextWord (separates (literal " ")) (cString line)).map fun next =>
        (next.1, (next.2 ++ lineEnd line).tail) := by
  have agree : ∀ letter ∈ cString line,
      separates (literal " \n") letter = separates (literal " ") letter := by
    intro letter inside
    have plain : letter ≠ 0xA#8 := by
      rintro rfl
      exact notMem_cString single inside
    simpa [separates, literal] using fun newline => absurd newline plain
  have newline : separates (literal " \n") 0xA#8 = true := by decide
  rw [cString_line, strtok_eq_nextWord, lineEnd]
  split
  case isTrue =>
    rw [List.append_nil, nextWord_congr agree]
    simp only [List.append_nil]
  case isFalse =>
    rw [← nextWord_congr agree]
    cases found : nextWord (separates (literal " \n")) (cString line) with
    | none =>
        rw [nextWord_append_of_none found]
        rfl
    | some next =>
        rw [nextWord_append_of_some found]
        split
        case isTrue last => simp [last, newline]
        case isFalse => rfl

/-- The word that the newline makes behind a blank. -/
def newlineWord (line : List Byte) : List (List Byte) :=
  if EndsInBlank line then [[0xA#8]] else []

/-- The tokens behind the command are used as the words of the line, and as the newline where it is
one. -/
theorem tokens_line {command rest : List Byte} (single : 0xA#8 ∉ line)
    (next : IsNextWord (separates (literal " ")) (cString line) command rest) :
    UsedAs (words (separates (literal " ")) (rest ++ lineEnd line).tail)
      (words (separates (literal " ")) rest ++ newlineWord line) := by
  have typed : ∀ word ∈ words (separates (literal " ")) rest, word ≠ [] ∧ 0xA#8 ∉ word := by
    intro word listed
    rcases mem_words listed with ⟨nonempty, part, -⟩
    refine ⟨nonempty, ?_⟩
    intro inside
    have among : 0xA#8 ∈ cString line :=
      next.mem_text (List.mem_append_right _ (part.subset inside))
    exact notMem_cString single among
  cases rest with
  | nil =>
      have ends := next.endsInWord_of_nil rfl
      have none : newlineWord line = [] := by
        rw [newlineWord, if_neg]
        rintro ⟨plain, blank⟩
        rw [cString_of_notMem plain, blank] at ends
        cases ends
      have nothing : ([] ++ lineEnd line).tail = [] := by
        rw [List.nil_append, lineEnd]
        split <;> rfl
      rw [nothing, none]
      exact usedAs_self (List.forall_mem_nil _)
  | cons blank rest =>
      have space := next.stops blank rfl
      have ends : endsInWord (separates (literal " ")) (cString line) =
          endsInWord (separates (literal " ")) rest := by
        rw [next.endsInWord_eq (List.cons_ne_nil _ _), endsInWord_cons_of_space space]
      rw [List.cons_append, List.tail_cons, words_cons_of_space space]
      rw [words_cons_of_space space] at typed
      have kept := usedAs_self fun word listed => cutNewline_of_notMem (typed word listed).2
      by_cases zero : 0#8 ∈ line
      · rw [lineEnd, if_pos zero, newlineWord, if_neg fun blankEnd => blankEnd.1 zero,
          List.append_nil, List.append_nil]
        exact kept
      · rw [cString_of_notMem zero] at ends
        have letter : separates (literal " ") 0xA#8 = false := by decide
        rw [lineEnd, if_neg zero]
        rcases words_append_letter letter rest with
          ⟨inWord, front, last, before, after⟩ | ⟨open_, after⟩
        · have none : ¬EndsInBlank line := by
            rintro ⟨-, blankEnd⟩
            rw [ends, inWord] at blankEnd
            cases blankEnd
          rw [newlineWord, if_neg none, List.append_nil, after, before]
          rw [before, List.forall_mem_append, List.forall_mem_singleton] at typed
          have front := usedAs_self fun word listed => cutNewline_of_notMem (typed.1 word listed).2
          exact front.append (usedAs_last typed.2.1 typed.2.2)
        · rw [newlineWord, if_pos ⟨zero, ends.trans open_⟩, after]
          exact kept.append usedAs_newline

end Tokens

section Line

variable {before : Arguments} {line : List Byte} {command : Command} {args : List (List Byte)}

theorem Command.word_injective : Function.Injective Command.word := by
  intro command other same
  cases command <;> cases other <;> first | rfl | exact absurd same (by decide)

theorem documented_iff (typed : typedWords line = command.word :: args) {other : Command}
    {words : List (List Byte)} : Documented line other words ↔
      command = other ∧ args = words ∧ args.length = command.arity := by
  rw [Documented, typed, List.cons.injEq, Command.word_injective.eq_iff]
  constructor
  · rintro ⟨⟨rfl, rfl⟩, count⟩
    exact ⟨rfl, rfl, count⟩
  · rintro ⟨rfl, rfl, count⟩
    exact ⟨⟨rfl, rfl⟩, count⟩

/-- The words that the `switch` is given, of which there are at most four. -/
theorem nfsRemote1Line_typed {savecmd : List Byte} (single : 0xA#8 ∉ line)
    (typed : typedWords line = savecmd :: args) :
    ∃ tokens, before.nfsRemote1Line line = before.switch savecmd tokens ∧
      UsedAs tokens ((args ++ newlineWord line).take 4) := by
  rw [typedWords, words_of_nextWord] at typed
  cases found : nextWord (separates (literal " ")) (cString line) with
  | none =>
      rw [found] at typed
      cases typed
  | some next =>
      rw [found] at typed
      rcases List.cons.inj typed with ⟨first, rfl⟩
      refine ⟨_, ?_, (tokens_line single (nextWord_some found)).take 4⟩
      rw [Arguments.nfsRemote1Line, strtok_line single, found, Option.map_some]
      simp only [fields_eq_take, first]

theorem followsUsage_command_iff (single : 0xA#8 ∉ line) (short : line.length ≤ 1022)
    (typed : typedWords line = command.word :: args) : FollowsUsage before line ↔
      (min 4 (args.length + (newlineWord line).length) = command.arity ↔
          args.length = command.arity) ∧
        (args.length = command.arity → command = .read ∨ command = .write →
          ∀ name ∈ args.head?, name.length < 128) := by
  rcases @nfsRemote1Line_typed before _ _ _ single typed with ⟨tokens, split, used⟩
  have count : tokens.length = min 4 (args.length + (newlineWord line).length) := by
    simpa using congrArg List.length used.cut
  have made : (∃ call, before.nfsRemote1Line line = .calls call) ↔
      min 4 (args.length + (newlineWord line).length) = command.arity := by
    rw [split, switch_calls_iff, count]
  have documented : (∃ other words, Documented line other words) ↔ args.length = command.arity := by
    simp only [documented_iff typed]
    constructor
    · rintro ⟨_, _, _, _, whole⟩
      exact whole
    · intro whole
      exact ⟨command, args, rfl, rfl, whole⟩
  have texts : ∀ word ∈ args, 0#8 ∉ word ∧ word.length < 1024 := by
    intro word listed
    have inside : word ∈ typedWords line := typed ▸ List.mem_cons_of_mem _ listed
    have part := (mem_words inside).2.1
    have bound : (cString line).length ≤ line.length :=
      (List.takeWhile_sublist _).length_le
    refine ⟨fun zero => ?_, part.length_le.trans_lt (by omega)⟩
    simpa using List.mem_takeWhile_imp (part.subset zero)
  have whole : args.length = command.arity →
      min 4 (args.length + (newlineWord line).length) = command.arity →
      UsedAs tokens args := by
    intro needed taken
    rcases Nat.lt_or_ge args.length 4 with few | four
    · have none : newlineWord line = [] := List.length_eq_zero_iff.mp (by omega)
      rwa [none, List.append_nil, List.take_of_length_le few.le] at used
    · rwa [List.take_append_of_le_length four, List.take_of_length_le (by omega)] at used
  constructor
  · intro follows
    have calls := made.symm.trans (follows.calls_iff.trans documented)
    refine ⟨calls, ?_⟩
    intro needed
    rcases made.mpr (calls.mpr needed) with ⟨call, makes⟩
    have carried := follows.carries command args call
      ((documented_iff typed).mpr ⟨rfl, rfl, needed⟩) makes
    exact (carries_iff (whole needed (calls.mpr needed)) texts (split ▸ makes)).mp carried
  · rintro ⟨calls, filename⟩
    constructor
    case nonnull =>
      rw [split]
      exact switch_ne_null _
    case calls_iff => exact made.trans (calls.trans documented.symm)
    case carries =>
      intro other words call usage makes
      rcases (documented_iff typed).mp usage with ⟨rfl, rfl, needed⟩
      exact (carries_iff (whole needed (calls.mpr needed)) texts (split ▸ makes)).mpr
        (filename needed)

theorem understood_command_iff (typed : typedWords line = command.word :: args) :
    Understood line ↔
      (min 4 (args.length + (newlineWord line).length) = command.arity ↔
          args.length = command.arity) ∧
        (args.length = command.arity → command = .read ∨ command = .write →
          ∀ name ∈ args.head?, name.length < 128) := by
  have arities : command.arity ≤ 4 ∧ (command.arity = 4 ↔ command = .write) := by
    cases command <;> decide
  constructor
  · intro understood
    have capped : command.arity = 4 → args.length ≤ 4 := by
      intro four
      rcases arities.2.mp four with rfl
      exact understood.capped args typed
    refine ⟨?_, ?_⟩
    · rw [newlineWord]
      split
      case isTrue blank =>
        rcases understood.newline blank command args typed with ⟨apart, alone⟩
        rw [← arities.2] at alone
        rw [List.length_singleton]
        omega
      case isFalse =>
        rw [List.length_nil]
        omega
    · intro needed isFile name first
      rcases List.head?_eq_some_iff.mp first with ⟨rest, rfl⟩
      exact understood.filename command name rest isFile ⟨typed, needed⟩
  · rintro ⟨calls, filename⟩
    constructor
    case command =>
      rw [typed]
      exact List.cons_ne_nil _ _
    case capped =>
      intro words same
      have parts := List.cons.inj (typed.symm.trans same)
      rw [← parts.2]
      have four := arities.2.mpr (Command.word_injective parts.1)
      omega
    case newline =>
      intro blank other words same
      have parts := List.cons.inj (typed.symm.trans same)
      rcases Command.word_injective parts.1 with rfl
      rw [← parts.2]
      rw [newlineWord, if_pos blank, List.length_singleton] at calls
      refine ⟨by omega, ?_⟩
      intro needed
      exact arities.2.mp (by omega)
    case filename =>
      intro other name words isFile usage
      rcases (documented_iff typed).mp usage with ⟨rfl, rfl, needed⟩
      exact filename needed isFile name rfl

end Line

/-- The client makes a call for each line that is a command with the words that its usage asks for
and for no other, and it never stops at a null pointer, exactly when the line is one of those that
are understood. -/
theorem followsUsage_iff (before : Arguments) (line : List Byte) (single : 0xA#8 ∉ line)
    (short : line.length ≤ 1022) : FollowsUsage before line ↔ Understood line := by
  cases typed : typedWords line with
  | nil =>
      have missing : before.nfsRemote1Line line = .nullCommand := by
        cases found : nextWord (separates (literal " ")) (cString line) with
        | none => rw [Arguments.nfsRemote1Line, strtok_line single, found, Option.map_none]
        | some next =>
            rw [typedWords, words_of_nextWord, found] at typed
            cases typed
      exact iff_of_false (fun follows => follows.nonnull missing)
        (fun understood => understood.command typed)
  | cons first args =>
      by_cases known : ∃ command, first = Command.word command
      · rcases known with ⟨command, rfl⟩
        rw [followsUsage_command_iff single short typed, understood_command_iff typed]
      · have other : ∀ command words, typedWords line ≠ Command.word command :: words := by
          intro command words same
          exact known ⟨command, (List.cons.inj (typed.symm.trans same)).1⟩
        rcases @nfsRemote1Line_typed before _ _ _ single typed with ⟨tokens, split, -⟩
        rw [not_exists] at known
        have silent := @switch_other before tokens _ known
        rw [← split] at silent
        apply iff_of_true
        · constructor
          case nonnull => exact silent.1
          case calls_iff =>
            apply iff_of_false
            · rintro ⟨call, makes⟩
              exact silent.2 call makes
            · rintro ⟨command, words, usage⟩
              exact other command words usage.1
          case carries => exact fun command words _ usage => absurd usage.1 (other command words)
        · constructor
          case command =>
            rw [typed]
            exact List.cons_ne_nil _ _
          case capped => exact fun words same => absurd same (other _ words)
          case newline => exact fun _ command words same => absurd same (other command words)
          case filename => exact fun command _ _ _ usage => absurd usage.1 (other command _)

def zeroArguments : Arguments where
  nfsLs1Arg := Bufnode.initial
  nfsWrite1Arg := writeRequest 0#32 0#32
  nfsRead1Arg := readRequest 0#32 0#32
  nfsCd1Arg := Bufnode.initial
  getattr1Arg := Bufnode.initial
  setattr1Arg := Bufnode.initial
  nfsRemove1Arg := Bufnode.initial
  nfsMkdir1Arg := Bufnode.initial
  nfsTouch1Arg := Bufnode.initial

theorem followsUsage_cd : FollowsUsage zeroArguments (literal "cd notes") := by
  have typed : typedWords (literal "cd notes") = Command.cd.word :: [literal "notes"] := by decide
  have none : newlineWord (literal "cd notes") = [] := by decide
  apply (followsUsage_iff zeroArguments (literal "cd notes") (by decide) (by decide)).mpr
  rw [understood_command_iff typed, none]
  decide

/-- At an empty line `getCommandType` is given a null pointer. -/
theorem empty_line_null : zeroArguments.nfsRemote1Line [] = .nullCommand ∧
    ¬FollowsUsage zeroArguments [] :=
  ⟨rfl, fun follows => follows.nonnull rfl⟩

end NetLab.Nfs
