import NetLab.Imperative.Loop
import NetLab.Nfs.Handlers
import NetLab.Nfs.Requests
import Mathlib.Data.Nat.Digits.Defs

/-!
# Permissions

A mode is typed as an octal number, of which `perm_bit` in `nfs_client.c` computes the
value in an `int` that may overflow. The last three digits are all that the permission
text of `getattr_1_svc` shows of it, and these are never lost.
-/

namespace NetLab.Nfs

open NetLab.Imperative NetLab.Posix

/-- `perm_bit`: the loop runs from the last character to the first, with the weight in `coff`. -/
def permBit (args : List Byte) : BitVec 32 :=
  (forDown 0 args.length
    (fun i (state : BitVec 32 × BitVec 32) =>
      let (coff, perm) := state
      (coff * 8#32, perm + ((args.getD i 0#8).signExtend 32 - 0x30#32) * coff))
    (1#32, 0#32)).2

def isOctalDigit (byte : Byte) : Bool :=
  0x30#8 ≤ byte && byte ≤ 0x37#8

def octalDigit (byte : Byte) : ℕ :=
  byte.toNat - 0x30

/-- The number that octal digits denote. -/
def octalValue (text : List Byte) : ℕ :=
  Nat.ofDigits 8 (text.reverse.map octalDigit)

def rwx (digit : ℕ) : List Byte :=
  [if digit.testBit 2 then 0x72#8 else 0x2D#8,
    if digit.testBit 1 then 0x77#8 else 0x2D#8,
    if digit.testBit 0 then 0x78#8 else 0x2D#8]

section Digits

variable {byte : Byte} {text : List Byte}

theorem octalDigit_lt (octal : isOctalDigit byte = true) : octalDigit byte < 8 := by
  simp only [isOctalDigit, Bool.and_eq_true, decide_eq_true_eq, BitVec.le_def] at octal
  have above : byte.toNat ≤ 55 := octal.2
  rw [octalDigit]
  omega

theorem signExtend_sub (octal : isOctalDigit byte = true) :
    byte.signExtend 32 - 0x30#32 = BitVec.ofNat 32 (octalDigit byte) := by
  revert octal
  rw [octalDigit]
  revert byte
  decide +kernel

theorem octalValue_cons (byte : Byte) (text : List Byte) :
    octalValue (byte :: text) = octalValue text + 8 ^ text.length * octalDigit byte := by
  rw [octalValue, List.reverse_cons, List.map_append, Nat.ofDigits_append, List.length_map,
    List.length_reverse, List.map_singleton, Nat.ofDigits_singleton, octalValue]

theorem octalValue_append_singleton (text : List Byte) (byte : Byte) :
    octalValue (text ++ [byte]) = 8 * octalValue text + octalDigit byte := by
  rw [octalValue, List.reverse_append, List.reverse_singleton, List.singleton_append,
    List.map_cons, Nat.ofDigits_cons, octalValue, Nat.add_comm]

/-- However long the text, the result is the value of its digits, as far as an `int` can hold it. -/
theorem permBit_eq (octal : ∀ byte ∈ text, isOctalDigit byte = true) :
    permBit text = BitVec.ofNat 32 (octalValue text) := by
  suffices state : (forDown 0 text.length
      (fun i (state : BitVec 32 × BitVec 32) =>
        (state.1 * 8#32, state.2 + ((text.getD i 0#8).signExtend 32 - 0x30#32) * state.1))
      (1#32, 0#32)) = (BitVec.ofNat 32 (8 ^ text.length), BitVec.ofNat 32 (octalValue text)) by
    exact congrArg Prod.snd state
  apply forDown_induction (fun bound (state : BitVec 32 × BitVec 32) =>
    state = (BitVec.ofNat 32 (8 ^ (text.drop bound).length),
      BitVec.ofNat 32 (octalValue (text.drop bound)))) (Nat.zero_le _)
  · simp [octalValue]
  · rintro i state _ inside rfl
    have digit := octal text[i] (List.getElem_mem inside)
    have last : text.drop i = text[i] :: text.drop (i + 1) := List.drop_eq_getElem_cons inside
    rw [last, octalValue_cons, List.length_cons, List.getD_eq_getElem?_getD,
      List.getElem?_eq_getElem inside, Option.getD_some, signExtend_sub digit, Nat.pow_succ,
      BitVec.ofNat_mul, BitVec.ofNat_add, BitVec.ofNat_mul,
      BitVec.mul_comm (BitVec.ofNat 32 (octalDigit text[i]))]

theorem testBit_octalValue (octal : isOctalDigit byte = true) (text : List Byte) (b : ℕ) :
    (octalValue (text ++ [byte])).testBit b =
      if b < 3 then (octalDigit byte).testBit b else (octalValue text).testBit (b - 3) := by
  rw [octalValue_append_singleton]
  exact Nat.testBit_two_pow_mul_add (i := 3) _ (octalDigit_lt octal) b

end Digits

section Mode

variable {st mode : BitVec 32}

theorem permLetter_eq (st : BitVec 32) (b : ℕ) (letter : Byte) (valid : b < 32) :
    permLetter st (BitVec.twoPow 32 b) letter = if st.getLsbD b then letter else 0x2D#8 := by
  have nonzero : BitVec.twoPow 32 b ≠ 0#32 := by
    intro zero
    have bit := BitVec.getLsbD_twoPow (w := 32) b b
    rw [zero] at bit
    simp [valid] at bit
  rw [permLetter, BitVec.and_twoPow]
  cases st.getLsbD b <;> simp [nonzero]

/-- The permission text has the letter of the type, and a letter or a dash for each of nine bits. -/
theorem printPerms_eq (st : BitVec 32) : printPerms st = typeLetter st ::
    [if st.getLsbD 8 then 0x72#8 else 0x2D#8, if st.getLsbD 7 then 0x77#8 else 0x2D#8,
      if st.getLsbD 6 then 0x78#8 else 0x2D#8, if st.getLsbD 5 then 0x72#8 else 0x2D#8,
      if st.getLsbD 4 then 0x77#8 else 0x2D#8, if st.getLsbD 3 then 0x78#8 else 0x2D#8,
      if st.getLsbD 2 then 0x72#8 else 0x2D#8, if st.getLsbD 1 then 0x77#8 else 0x2D#8,
      if st.getLsbD 0 then 0x78#8 else 0x2D#8] := by
  rw [← permLetter_eq st 8 0x72#8 (by decide), ← permLetter_eq st 7 0x77#8 (by decide),
    ← permLetter_eq st 6 0x78#8 (by decide), ← permLetter_eq st 5 0x72#8 (by decide),
    ← permLetter_eq st 4 0x77#8 (by decide), ← permLetter_eq st 3 0x78#8 (by decide),
    ← permLetter_eq st 2 0x72#8 (by decide), ← permLetter_eq st 1 0x77#8 (by decide),
    ← permLetter_eq st 0 0x78#8 (by decide)]
  rfl

/-- A change of the mode leaves the type, and takes the last nine bits. -/
theorem typeLetter_stored (st mode : BitVec 32) :
    typeLetter ((st &&& ~~~0xFFF#32) ||| (mode &&& 0xFFF#32)) = typeLetter st := by
  have high : ~~~0xFFF#32 &&& 0xF000#32 = 0xF000#32 := by decide
  have low : 0xFFF#32 &&& 0xF000#32 = 0#32 := by decide
  have kept : ((st &&& ~~~0xFFF#32) ||| (mode &&& 0xFFF#32)) &&& 0xF000#32 =
      st &&& 0xF000#32 := by
    rw [BitVec.and_or_distrib_right, BitVec.and_assoc, high, BitVec.and_assoc, low,
      BitVec.and_zero, BitVec.or_zero]
  rw [typeLetter, kept, typeLetter]

theorem getLsbD_stored {b : ℕ} (low : b < 12) (st mode : BitVec 32) :
    ((st &&& ~~~0xFFF#32) ||| (mode &&& 0xFFF#32)).getLsbD b = mode.getLsbD b := by
  have masks : ∀ b < 12, (~~~0xFFF#32).getLsbD b = false ∧ (0xFFF#32).getLsbD b = true := by
    decide
  have ⟨cleared, taken⟩ := masks b low
  rw [BitVec.getLsbD_or, BitVec.getLsbD_and, BitVec.getLsbD_and, cleared, taken, Bool.and_false,
    Bool.and_true, Bool.false_or]

end Mode

section Survive

variable {text : List Byte}

theorem getLsbD_permBit (octal : ∀ byte ∈ text, isOctalDigit byte = true) {b : ℕ} (valid : b < 32) :
    (permBit text).getLsbD b = (octalValue text).testBit b := by
  rw [permBit_eq octal, BitVec.getLsbD_ofNat, decide_eq_true valid, Bool.true_and]

/-- The nine letters are those of the last three digits. -/
theorem letters_permBit (octal : ∀ byte ∈ text, isOctalDigit byte = true)
    (long : 3 ≤ text.length) (st : BitVec 32) :
    (printPerms ((st &&& ~~~0xFFF#32) ||| (permBit text &&& 0xFFF#32))).drop 1 =
      (text.drop (text.length - 3)).flatMap fun byte => rwx (octalDigit byte) := by
  have three : (text.drop (text.length - 3)).length = 3 := by
    rw [List.length_drop]
    omega
  rcases List.length_eq_three.mp three with ⟨user, group, others, last⟩
  have digits : ∀ byte ∈ [user, group, others], isOctalDigit byte = true := by
    rw [← last]
    exact fun byte listed => octal byte (List.mem_of_mem_drop listed)
  simp only [List.forall_mem_cons] at digits
  have whole : text = text.take (text.length - 3) ++ [user] ++ [group] ++ [others] := by
    rw [List.append_assoc, List.append_assoc]
    change text = text.take (text.length - 3) ++ [user, group, others]
    rw [← last, List.take_append_drop]
  have bit : ∀ b < 9, ((st &&& ~~~0xFFF#32) ||| (permBit text &&& 0xFFF#32)).getLsbD b =
      if b < 3 then (octalDigit others).testBit b
      else if b - 3 < 3 then (octalDigit group).testBit (b - 3)
      else (octalDigit user).testBit (b - 3 - 3) := by
    intro b low
    rw [getLsbD_stored (by omega), getLsbD_permBit octal (by omega), whole,
      testBit_octalValue digits.2.2.1, testBit_octalValue digits.2.1,
      testBit_octalValue digits.1, if_pos (by omega : b - 3 - 3 < 3)]
  rw [printPerms_eq, last]
  simp only [bit _ (by decide : 8 < 9), bit _ (by decide : 7 < 9), bit _ (by decide : 6 < 9),
    bit _ (by decide : 5 < 9), bit _ (by decide : 4 < 9), bit _ (by decide : 3 < 9),
    bit _ (by decide : 2 < 9), bit _ (by decide : 1 < 9), bit _ (by decide : 0 < 9)]
  rfl

/-- The permission text in the reply about an existing file. -/
theorem take_getattr {argp : Bufnode} {machine : Machine}
    (found : (machine.inodeAt argp.path).isSome = true) (details : List Byte) (result : Bufnode) :
    (getattr1Svc true details argp result machine).buffer.toList.take 10 =
      printPerms (machine.stMode argp.path) := by
  have length : (printPerms (machine.stMode argp.path)).length = 10 := rfl
  have accessed : ¬ machine.access true argp.path < 0 := by
    rw [Machine.access, found]
    decide
  rw [getattr1Svc, if_neg accessed, Bufnode.print]
  simp only
  rw [take_toList_storePrefix (by simp [length]) (by decide), List.append_assoc, ← length,
    List.take_left]

end Survive

def modeRequest : Bufnode :=
  { Bufnode.initial with size := permBit (literal "0750") }

end NetLab.Nfs
