import NetLab.Crc.Detection

/-!
# The program on character strings

The embedding of `errcorrection/crc.c`, which divides the string of the message
by the string of the key, and its agreement with the sender pass of `crc1.c`.

The programs hold the window in different states between iterations. `crc1.c`
moves the window at the start of an iteration; `crc.c` moves it at the end, so
that its `temp` is already the window that `crc1.c` is about to form. On the
last iteration the cell it looks ahead at lies behind the padded message, and
`Agree` says nothing about the corresponding cell of `temp`.
-/

namespace NetLab.Crc

open NetLab.Imperative

abbrev Chars := ℕ → Char

/-- The arrays of the program on strings, as they are before anything is stored in them, and the
declared sizes of the two that are read from. -/
structure Buffers where
  input : Chars
  inputSize : ℕ
  key : Chars
  keySize : ℕ
  temp : Chars
  quot : Chars
  rem : Chars
  key1 : Chars

/-- `gets` stores the line and the terminating zero. -/
def gets (line : List Char) (buffer : Chars) : Chars := fun p =>
  if p < line.length then line.getD p '\x00' else if p = line.length then '\x00' else buffer p

/-- The index of the first terminating zero among `size` cells from `p` on. -/
def terminator (buffer : Chars) : ℕ → ℕ → ℕ
  | 0, p => p
  | size + 1, p => if buffer p = '\x00' then p else terminator buffer size (p + 1)

/-- `strlen` of a string in an array of `size` cells. -/
def strlen (size : ℕ) (buffer : Chars) : ℕ :=
  terminator buffer size 0

def copyCells (count : ℕ) (source target : Chars) : Chars :=
  forUp 0 count (fun p target => Function.update target p (source p)) target

structure Registers where
  key : Chars
  temp : Chars
  quot : Chars
  rem : Chars

/-- The key of an iteration: zeros below a quotient digit `0`, else the copy of the key. -/
def stepKey (keylen : ℕ) (quotient : Char) (key1 key : Chars) : Chars :=
  if quotient = '0' then forUp 0 keylen (fun j key => Function.update key j '0') key
  else forUp 0 keylen (fun j key => Function.update key j (key1 j)) key

/-- `for (j = keylen - 1; j > 0; j--)`: compare, and store the result one cell lower. -/
def compareCells (keylen : ℕ) (temp key rem : Chars) : Chars :=
  forDown 1 keylen
    (fun j rem => Function.update rem (j - 1) (if temp j = key j then '0' else '1')) rem

/-- The body of the division on strings. The final `strcpy` copies the `keylen` live cells. -/
def stringStep (keylen : ℕ) (input key1 : Chars) (i : ℕ) (state : Registers) : Registers :=
  let quot := Function.update state.quot i (state.temp 0)
  let key := stepKey keylen (quot i) key1 state.key
  let rem := compareCells keylen state.temp key state.rem
  let rem := Function.update rem (keylen - 1) (input (i + keylen))
  { key := key, temp := copyCells keylen rem state.temp, quot := quot, rem := rem }

structure StringOutput where
  quotient : List Char
  remainder : List Char
  finalData : List Char

def stringMain (buffers : Buffers) (message key : List Char) : StringOutput :=
  let input := gets message buffers.input
  let key := gets key buffers.key
  let keylen := strlen buffers.keySize key
  let msglen := strlen buffers.inputSize input
  let key1 := copyCells (strlen buffers.keySize key + 1) key buffers.key1
  let input := forUp 0 (keylen - 1) (fun i input => Function.update input (msglen + i) '0') input
  let temp := copyCells keylen input buffers.temp
  let divided := forUp 0 msglen (stringStep keylen input key1)
    { key := key, temp := temp, quot := buffers.quot, rem := buffers.rem }
  let rem := copyCells keylen divided.temp divided.rem
  { quotient := (List.range msglen).map divided.quot
    remainder := (List.range (keylen - 1)).map rem
    finalData := (List.range msglen).map input ++ (List.range (keylen - 1)).map rem }

/-! ## Strings in arrays -/

theorem copyCells_apply (count : ℕ) (source target : Chars) (p : ℕ) :
    copyCells count source target p = if p < count then source p else target p := by
  simp [copyCells, forUp_fill]

theorem gets_apply {typed : List Char} {p : ℕ} (inside : p < typed.length) (buffer : Chars) :
    gets typed buffer p = typed[p] := by
  simp [gets, inside]

theorem terminator_gets {typed : List Char} {buffer : Chars} (noZero : '\x00' ∉ typed) {size p : ℕ}
    (before : p ≤ typed.length) (large : typed.length < p + size) :
    terminator (gets typed buffer) size p = typed.length := by
  induction size generalizing p with
  | zero => omega
  | succ size ih =>
      rcases Nat.lt_or_eq_of_le before with inside | rfl
      · have letter : typed[p] ≠ '\x00' := by
          intro zero
          exact noZero (zero ▸ List.getElem_mem inside)
        simp only [terminator, gets_apply inside, letter, if_false]
        exact ih inside (by omega)
      · simp [terminator, gets]

theorem strlen_gets {line : List Char} {buffer : Chars} {size : ℕ} (noZero : '\x00' ∉ line)
    (large : line.length < size) : strlen size (gets line buffer) = line.length :=
  terminator_gets noZero (Nat.zero_le _) (by omega)

/-! ## Bits as characters -/

/-- The character for a cell that holds a bit. -/
def digit (cell : BitVec 32) : Char :=
  if cell = 0#32 then '0' else '1'

def bitCells (line : List Char) : Cells := fun p =>
  if line.getD p '0' = '1' then 1#32 else 0#32

theorem bitCells_isBit (line : List Char) (p : ℕ) : IsBit (bitCells line p) := by
  by_cases one : line.getD p '0' = '1'
  · exact Or.inr (if_pos one)
  · exact Or.inl (if_neg one)

theorem digit_bitCells {typed : List Char} (digits : ∀ c ∈ typed, c = '0' ∨ c = '1') {p : ℕ}
    (inside : p < typed.length) : digit (bitCells typed p) = typed[p] := by
  rcases digits typed[p] (List.getElem_mem inside) with letter | letter <;>
    simp [digit, bitCells, inside, letter]

theorem digit_xor {left right : BitVec 32} (leftBit : IsBit left) (rightBit : IsBit right) :
    digit (left ^^^ right) = if digit left = digit right then '0' else '1' := by
  rcases leftBit with rfl | rfl <;> rcases rightBit with rfl | rfl <;> decide

/-! ## The two loops -/

/-- The relation between the two programs before iteration `i` of the string program. -/
structure Agree (n m : ℕ) (a : Cells) (i : ℕ) (state : Division) (strings : Registers) : Prop where
  count : state.k = i
  quot : ∀ p, p < i → strings.quot p = digit (state.div p)
  bits : ∀ p, p ≤ n → p < n ∨ i ≤ m → IsBit (window n a (n + i) state.r p)
  temp : ∀ p, p ≤ n → p < n ∨ i ≤ m →
    strings.temp p = digit (window n a (n + i) state.r p)

theorem stringStep_quot (keylen : ℕ) (input key1 : Chars) (i : ℕ) (state : Registers) :
    (stringStep keylen input key1 i state).quot =
      Function.update state.quot i (state.temp 0) := rfl

theorem stepKey_apply {keylen p : ℕ} (inside : p < keylen) (quotient : Char) (key1 key : Chars) :
    stepKey keylen quotient key1 key p = if quotient = '0' then '0' else key1 p := by
  rw [stepKey]
  split_ifs <;> simp [forUp_fill, inside]

theorem compareCells_apply {n p : ℕ} (below : p < n) (temp key rem : Chars) :
    compareCells (n + 1) temp key rem p = if temp (p + 1) = key (p + 1) then '0' else '1' := by
  refine forDown_induction (fun bound (current : Chars) => ∀ q, bound ≤ q + 1 → q < n →
    current q = if temp (q + 1) = key (q + 1) then '0' else '1')
    (show 1 ≤ n + 1 by omega) ?_ ?_ p (by omega) below
  · intro q lower upper
    omega
  · intro j current lower _ holds q q_lower q_upper
    rcases eq_or_ne q (j - 1) with rfl | other
    · simp only [Function.update_self, Nat.sub_add_cancel lower]
    · simp only [Function.update_of_ne other]
      exact holds q (by omega) q_upper

/-- An iteration leaves in `temp` the comparisons moved down by one, and the cell ahead. -/
theorem stringStep_temp {n : ℕ} (input key1 : Chars) (i : ℕ) (state : Registers) {p : ℕ}
    (inside : p ≤ n) :
    (stringStep (n + 1) input key1 i state).temp p =
      if p < n then
        if state.temp (p + 1) = if state.temp 0 = '0' then '0' else key1 (p + 1) then '0' else '1'
      else input (i + (n + 1)) := by
  simp only [stringStep, copyCells_apply, if_pos (Nat.lt_succ_of_le inside), Nat.add_sub_cancel,
    Function.update_self]
  by_cases below : p < n
  · simp only [Function.update_of_ne below.ne, compareCells_apply below,
      stepKey_apply (Nat.succ_lt_succ below), below, if_true]
  · obtain rfl : p = n := by omega
    simp

/-- A cell of the window is compared with the key in the same way as it is reduced by it. -/
theorem compare_digits {left right multiple : BitVec 32} {quotient : Char} (leftBit : IsBit left)
    (rightBit : IsBit right) (isZero : quotient = '0' ↔ multiple = 0#32) :
    IsBit (if multiple = 0#32 then left else left ^^^ right) ∧
      (if digit left = if quotient = '0' then '0' else digit right then '0' else '1') =
        digit (if multiple = 0#32 then left else left ^^^ right) := by
  by_cases zero : multiple = 0#32
  · simp only [isZero, zero, if_true]
    refine ⟨leftBit, ?_⟩
    rcases leftBit with value | value <;> simp [value, digit]
  · simp only [isZero, zero, if_false]
    exact ⟨leftBit.xor rightBit, (digit_xor leftBit rightBit).symm⟩

section Agreement

variable {n m : ℕ} {g a : Cells} {input key1 : Chars}
  (g_bits : ∀ p, p ≤ n → IsBit (g p)) (a_bits : ∀ p, p ≤ m + n → IsBit (a p))
  (input_eq : ∀ p, p ≤ m + n → input p = digit (a p))
  (key1_eq : ∀ p, p ≤ n → key1 p = digit (g p))

include g_bits a_bits input_eq key1_eq in
theorem Agree.step {i : ℕ} {state : Division} {strings : Registers} (more : i < m + 1)
    (agree : Agree n m a i state strings) :
    Agree n m a (i + 1) (divisionStep n g a (n + i) state)
      (stringStep (n + 1) input key1 i strings) := by
  have live : ∀ p, p ≤ n → p < n ∨ i ≤ m := fun _ _ => Or.inr (by omega)
  have bits := fun p inside => agree.bits p inside (live p inside)
  have temp := fun p inside => agree.temp p inside (live p inside)
  have ⟨r_eq, div_eq, k_eq⟩ := divisionStep_apply n g a (n + i) state rfl
  have first : strings.temp 0 =
      digit (if window n a (n + i) state.r 0 = 0#32 then 0#32 else 1#32) := by
    rw [temp 0 (Nat.zero_le n)]
    rcases bits 0 (Nat.zero_le n) with zero | one
    · simp [zero]
    · simp [one]
  generalize (if window n a (n + i) state.r 0 = 0#32 then 0#32 else 1#32) = multiple
    at r_eq div_eq first
  have isZero : strings.temp 0 = '0' ↔ multiple = 0#32 := by
    rw [first]
    by_cases zero : multiple = 0#32 <;> simp [digit, zero]
  have moved : ∀ p, p < n →
      IsBit ((divisionStep n g a (n + i) state).r (p + 1)) ∧
        (if strings.temp (p + 1) = if strings.temp 0 = '0' then '0' else key1 (p + 1) then '0'
          else '1') = digit ((divisionStep n g a (n + i) state).r (p + 1)) := by
    intro p below
    rw [r_eq (p + 1) below, temp (p + 1) below, key1_eq (p + 1) below]
    exact compare_digits (bits (p + 1) below) (g_bits (p + 1) below) isZero
  have window_eq : ∀ p, p ≤ n →
      window n a (n + (i + 1)) (divisionStep n g a (n + i) state).r p =
        if p < n then (divisionStep n g a (n + i) state).r (p + 1) else a (n + (i + 1)) :=
    fun p inside => window_later (by omega) a _ inside
  constructor
  case count => rw [k_eq, agree.count]
  case quot =>
    intro p below
    rw [stringStep_quot, div_eq, agree.count]
    rcases eq_or_ne p i with rfl | other
    · simpa using first
    · simp only [Function.update_of_ne other]
      exact agree.quot p (by omega)
  case bits =>
    intro p inside alive
    rw [window_eq p inside]
    split_ifs with below
    · exact (moved p below).1
    · exact a_bits _ (by omega)
  case temp =>
    intro p inside alive
    rw [stringStep_temp input key1 i strings inside, window_eq p inside]
    by_cases below : p < n
    · simp only [if_pos below]
      exact (moved p below).2
    · simp only [if_neg below]
      rw [show i + (n + 1) = n + (i + 1) by omega]
      exact input_eq _ (by omega)

include g_bits a_bits input_eq key1_eq in
theorem division_agrees (r div : Cells) {strings : Registers}
    (loaded : ∀ p, p ≤ n → strings.temp p = input p) :
    Agree n m a (m + 1) (division n (m + n) g a r div)
      (forUp 0 (m + 1) (stringStep (n + 1) input key1) strings) := by
  have run : Agree n m a (m + 1) (division n (m + n) g a r div)
      (forUp 0 (0 + (m + 1)) (stringStep (n + 1) input key1) strings) := by
    simp only [division, show m + n + 1 = n + (m + 1) by omega]
    apply forUp_relate n 0 (m + 1) (Agree n m a)
    · have filled : ∀ p, p ≤ n →
          forUp 0 (n + 1) (fun j r => Function.update r j (a j)) r p = a p := by
        intro p inside
        simp [forUp_fill, Nat.lt_succ_of_le inside]
      constructor
      case count => rfl
      case quot => simp
      case bits =>
        intro p inside _
        simp only [Nat.add_zero, window_first, filled p inside]
        exact a_bits p (by omega)
      case temp =>
        intro p inside _
        simp only [Nat.add_zero, window_first, filled p inside, loaded p inside]
        exact input_eq p (by omega)
    · intro i state strings more agree
      rw [Nat.zero_add]
      exact agree.step g_bits a_bits input_eq key1_eq (by omega)
  simpa only [Nat.zero_add] using run

end Agreement

/-! ## The programs -/

theorem padInput_apply (msglen count : ℕ) (input : Chars) (p : ℕ) :
    forUp 0 count (fun i input => Function.update input (msglen + i) '0') input p =
      if msglen ≤ p ∧ p < msglen + count then '0' else input p := by
  refine forUp_induction (fun bound (current : Chars) => ∀ p,
    current p = if msglen ≤ p ∧ p < msglen + bound then '0' else input p)
    (Nat.zero_le count) ?_ ?_ p
  · intro p
    rw [if_neg (by omega)]
  · intro i current _ _ holds p
    rcases eq_or_ne p (msglen + i) with rfl | other
    · rw [Function.update_self, if_pos (by omega)]
    · rw [Function.update_of_ne other, holds p]
      exact if_congr (by omega) rfl rfl

theorem not_mem_of_digits {line : List Char} (digits : ∀ c ∈ line, c = '0' ∨ c = '1') :
    '\x00' ∉ line := by
  intro zero
  rcases digits _ zero with same | same <;> simp at same

theorem padFrame_isBit (n m : ℕ) (message : List Char) (p : ℕ) :
    IsBit (padFrame n m (bitCells message) p) := by
  rw [padFrame_apply]
  split_ifs
  · exact Or.inl rfl
  · exact bitCells_isBit message p

theorem padInput_digit {message : List Char} {m : ℕ}
    (digits : ∀ c ∈ message, c = '0' ∨ c = '1') (length : message.length = m + 1) (n : ℕ)
    (buffer : Chars) {p : ℕ} (inside : p ≤ m + n) :
    forUp 0 n (fun i input => Function.update input (m + 1 + i) '0') (gets message buffer) p =
      digit (padFrame n m (bitCells message) p) := by
  rw [padInput_apply, padFrame_apply]
  rcases Nat.lt_or_ge m p with pad | data
  · rw [if_pos (by omega), if_pos (by omega)]
    rfl
  · have below : p < message.length := by omega
    rw [if_neg (by omega), if_neg (by omega), gets_apply below, digit_bitCells digits below]

theorem keyCopy_digit {key : List Char} {n : ℕ} (digits : ∀ c ∈ key, c = '0' ∨ c = '1')
    (length : key.length = n + 1) (buffer key1 : Chars) {p : ℕ} (inside : p ≤ n) :
    copyCells (n + 1 + 1) (gets key buffer) key1 p = digit (bitCells key p) := by
  have below : p < key.length := by omega
  rw [copyCells_apply, if_pos (by omega), gets_apply below, digit_bitCells digits below]

theorem transmittedFrame_eq (n m : ℕ) (memory : Memory) :
    transmittedFrame n m memory =
      (List.range (m + 1)).map (padFrame n m memory.a) ++
        (List.range n).map fun p => (division n (m + n) memory.g (padFrame n m memory.a) memory.r
          memory.div).r (1 + p) := by
  have cells : List.range (m + n + 1) = List.range (m + 1) ++ (List.range n).map (m + 1 + ·) := by
    rw [show m + n + 1 = m + 1 + n by omega]
    exact List.range_add
  simp only [transmittedFrame, cells, List.map_append, List.map_map]
  congr 1
  · apply List.map_congr_left
    intro p listed
    have below := List.mem_range.mp listed
    simp only [senderPass_a, padFrame_apply, if_neg (show ¬ (m < p ∧ p ≤ m + n) by omega)]
  · apply List.map_congr_left
    intro p listed
    have below := List.mem_range.mp listed
    simp only [Function.comp, senderPass_a,
      if_pos (show m < m + 1 + p ∧ m + 1 + p ≤ m + n by omega)]
    rw [show m + 1 + p - m = 1 + p by omega]
    rfl

/-- The program on strings prints the quotient, the remainder and the transmitted frame of the
sender pass on the corresponding bits. -/
theorem stringMain_agrees (n m : ℕ) (buffers : Buffers) (memory : Memory)
    (message key : List Char) (message_digits : ∀ c ∈ message, c = '0' ∨ c = '1')
    (key_digits : ∀ c ∈ key, c = '0' ∨ c = '1') (message_length : message.length = m + 1)
    (key_length : key.length = n + 1) (input_large : message.length < buffers.inputSize)
    (key_large : key.length < buffers.keySize) :
    (stringMain buffers message key).quotient =
        (senderPass n m { memory with a := bitCells message, g := bitCells key }).quotient.map
          digit ∧
      (stringMain buffers message key).remainder =
        (senderPass n m { memory with a := bitCells message, g := bitCells key }).remainder.map
          digit ∧
      (stringMain buffers message key).finalData =
        (transmittedFrame n m { memory with a := bitCells message, g := bitCells key }).map
          digit := by
  have keylen : strlen buffers.keySize (gets key buffers.key) = n + 1 := by
    rw [strlen_gets (not_mem_of_digits key_digits) key_large, key_length]
  have msglen : strlen buffers.inputSize (gets message buffers.input) = m + 1 := by
    rw [strlen_gets (not_mem_of_digits message_digits) input_large, message_length]
  have input_eq : ∀ p, p ≤ m + n → _ = digit (padFrame n m (bitCells message) p) :=
    fun p inside => padInput_digit message_digits message_length n buffers.input inside
  have key1_eq : ∀ p, p ≤ n → _ = digit (bitCells key p) :=
    fun p inside => keyCopy_digit key_digits key_length buffers.key buffers.key1 inside
  generalize input_def : forUp 0 n (fun i input => Function.update input (m + 1 + i) '0')
    (gets message buffers.input) = input at input_eq
  generalize key1_def : copyCells (n + 1 + 1) (gets key buffers.key) buffers.key1 = key1
    at key1_eq
  generalize start_def : ({ key := gets key buffers.key
                            temp := copyCells (n + 1) input buffers.temp
                            quot := buffers.quot
                            rem := buffers.rem } : Registers) = start
  have loaded : ∀ p, p ≤ n → start.temp p = input p := by
    intro p inside
    simp [← start_def, copyCells_apply, Nat.lt_succ_of_le inside]
  have agree := division_agrees (fun p _ => bitCells_isBit key p)
    (fun p _ => padFrame_isBit n m message p) input_eq key1_eq memory.r memory.div loaded
  have remainder : ∀ rem p, p < n →
      copyCells (n + 1) (forUp 0 (m + 1) (stringStep (n + 1) input key1) start).temp rem p =
        digit ((division n (m + n) (bitCells key) (padFrame n m (bitCells message)) memory.r
          memory.div).r (1 + p)) := by
    intro rem p below
    rw [copyCells_apply, if_pos (by omega), agree.temp p below.le (Or.inl below),
      window_later (by omega) _ _ below.le, if_pos below, Nat.add_comm p 1]
  simp only [stringMain, keylen, msglen, Nat.add_sub_cancel, input_def, key1_def, start_def]
  refine ⟨?_, ?_, ?_⟩
  · simp only [senderPass, List.map_map, agree.count]
    apply List.map_congr_left
    intro p listed
    exact agree.quot p (List.mem_range.mp listed)
  · simp only [senderPass, List.range'_eq_map_range, List.map_map]
    apply List.map_congr_left
    intro p listed
    exact remainder _ p (List.mem_range.mp listed)
  · simp only [transmittedFrame_eq, List.map_append, List.map_map]
    congr 1
    · apply List.map_congr_left
      intro p listed
      have below := List.mem_range.mp listed
      exact input_eq p (by omega)
    · apply List.map_congr_left
      intro p listed
      exact remainder _ p (List.mem_range.mp listed)

def filledBuffers : Buffers :=
  { input := fun _ => 'x', inputSize := 100, key := fun _ => 'x', keySize := 30,
    temp := fun _ => 'x', quot := fun _ => 'x', rem := fun _ => 'x', key1 := fun _ => 'x' }

theorem stringMain_agrees_filled :
    (stringMain filledBuffers ['1', '1', '0'] ['1', '1']).quotient =
        (senderPass 1 2 { linearMemory with
          a := bitCells ['1', '1', '0'], g := bitCells ['1', '1'] }).quotient.map digit ∧
      (stringMain filledBuffers ['1', '1', '0'] ['1', '1']).remainder =
        (senderPass 1 2 { linearMemory with
          a := bitCells ['1', '1', '0'], g := bitCells ['1', '1'] }).remainder.map digit ∧
      (stringMain filledBuffers ['1', '1', '0'] ['1', '1']).finalData =
        (transmittedFrame 1 2 { linearMemory with
          a := bitCells ['1', '1', '0'], g := bitCells ['1', '1'] }).map digit :=
  stringMain_agrees 1 2 filledBuffers linearMemory ['1', '1', '0'] ['1', '1'] (by simp)
    (by simp) rfl rfl (by decide) (by decide)

end NetLab.Crc
