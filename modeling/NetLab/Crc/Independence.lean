import NetLab.Crc.Detection

/-!
# What the receiver owes to the frame before

The receiver pass fills its window with the first `n + 1` cells of `a`, of which the
received frame only replaces as many as it has. A frame that is at least as long as
the generator hides what the cells held before; a shorter one does not, and the
receiver then prints bits of the frame that was sent.
-/

namespace NetLab.Crc

open NetLab.Imperative

/-- The remainder and the verdict that the receiver pass prints. -/
def shown (n m : ℕ) (typed : Cells) (memory : Memory) : List (BitVec 32) × String :=
  ((receiverPass n m typed memory).remainder, verdict n (receiverPass n m typed memory).memory.r)

def Output.shown : Output → Option (List (BitVec 32) × String)
  | notProper _ => none
  | checked _ _ receiver message => some (receiver.remainder, message)

/-- What is printed for the received frame does not depend on what `a`, `r` and `div` hold. -/
def ForgetsMemory (n : ℕ) (g : Cells) (m : ℕ) (typed : Cells) : Prop :=
  ∀ memory other : Memory, (∀ p ≤ n, memory.g p = g p) → (∀ p ≤ n, other.g p = g p) →
    shown n m typed memory = shown n m typed other

/-- What is printed for the received frame does not depend on the frame that was sent. -/
def ForgetsFrame (n : ℕ) (g : Cells) (receivedDegree : ℕ) (received : Cells) : Prop :=
  ∀ (memory other : Memory) (m otherDegree : ℕ) (frame otherFrame : Cells),
    properGenerator n m g → properGenerator n otherDegree g →
    (main memory { n, g, m, frame, receivedDegree, received }).shown =
      (main other { n, g, m := otherDegree, frame := otherFrame, receivedDegree, received }).shown

/-! ## Two runs of the division -/

theorem window_congr {n i : ℕ} {a other r s : Cells} (cell : a i = other i)
    (agree : ∀ p ≤ n, r p = s p) : ∀ p ≤ n, window n a i r p = window n other i s p := by
  intro p inside
  rcases Nat.lt_or_ge n i with later | first
  · rw [window_later later a r inside, window_later later other s inside]
    split
    case isTrue below => exact agree (p + 1) below
    case isFalse => exact cell
  · simp only [window, if_neg (not_lt.mpr first)]
    exact agree p inside

theorem divisionStep_congr {n i : ℕ} {g h a other : Cells} {state next : Division}
    (generator : ∀ p ≤ n, g p = h p) (cell : a i = other i)
    (agree : ∀ p ≤ n, state.r p = next.r p) :
    ∀ p ≤ n, (divisionStep n g a i state).r p = (divisionStep n h other i next).r p := by
  intro p inside
  have windows := window_congr cell agree
  rw [(divisionStep_apply n g a i state rfl).1 p inside,
    (divisionStep_apply n h other i next rfl).1 p inside, windows p inside,
    windows 0 (Nat.zero_le n), generator p inside]

theorem division_congr {n last : ℕ} {g h a other : Cells} (long : n ≤ last)
    (generator : ∀ p ≤ n, g p = h p) (frames : ∀ p ≤ last, a p = other p) (r s div quot : Cells) :
    ∀ p ≤ n, (division n last g a r div).r p = (division n last h other s quot).r p := by
  rw [division, division, show last + 1 = n + (last + 1 - n) by omega]
  apply forUp_relate n n (last + 1 - n)
    (fun _ (state next : Division) => ∀ p ≤ n, state.r p = next.r p)
  · intro p inside
    have below : p < n + 1 := Nat.lt_succ_of_le inside
    simp only [forUp_fill, Nat.zero_le, below, and_self, if_true]
    exact frames p (inside.trans long)
  · intro taken state next taken_lt agree
    exact divisionStep_congr generator (frames (n + taken) (by omega)) agree

theorem verdict_congr {n : ℕ} {r s : Cells} (agree : ∀ p ≤ n, r p = s p) :
    verdict n r = verdict n s := by
  have flags : noErrorFlag n r = noErrorFlag n s := by
    rw [Bool.eq_iff_iff, noErrorFlag_iff, noErrorFlag_iff]
    exact forall_congr' fun p => forall_congr' fun _ => forall_congr' fun inside => by
      rw [agree p inside]
  rw [verdict, verdict, flags]

theorem remainder_congr {n : ℕ} {r s : Cells} (agree : ∀ p ≤ n, r p = s p) :
    (List.range' 1 n).map r = (List.range' 1 n).map s := by
  apply List.map_congr_left
  intro p listed
  rw [List.mem_range'_1] at listed
  exact agree p (by omega)

theorem forgetsMemory_of_long {n m : ℕ} (long : n ≤ m) (g typed : Cells) :
    ForgetsMemory n g m typed := by
  intro memory other left right
  have agree : ∀ p ≤ n, (receiverPass n m typed memory).memory.r p =
      (receiverPass n m typed other).memory.r p := by
    apply division_congr long
    · intro p inside
      rw [left p inside, right p inside]
    · intro p inside
      rw [readCells_apply, readCells_apply, if_pos (by omega), if_pos (by omega)]
  exact Prod.ext (remainder_congr agree) (verdict_congr agree)

/-! ## A frame that is too short -/

/-- The division loop is not entered, so the window keeps the cells it was filled with. -/
theorem receiverPass_of_short {n m : ℕ} (short : m < n) (typed : Cells) (memory : Memory) {p : ℕ}
    (inside : p ≤ n) :
    (receiverPass n m typed memory).memory.r p = if p ≤ m then typed p else memory.a p := by
  have below : p < n + 1 := Nat.lt_succ_of_le inside
  change (division n m memory.g (readCells (m + 1) typed memory.a) memory.r memory.div).r p = _
  rw [division, forUp_of_le (Nat.succ_le_of_lt short)]
  simp only [forUp_fill, Nat.zero_le, below, and_self, if_true, readCells_apply, Nat.lt_succ_iff]

/-- The last cell that is printed is one of the frame before. -/
theorem shown_ne_of_short {n m : ℕ} (short : m < n) (typed : Cells) {memory other : Memory}
    (apart : memory.a n ≠ other.a n) : shown n m typed memory ≠ shown n m typed other := by
  intro same
  have remainders : (List.range' 1 n).map (receiverPass n m typed memory).memory.r =
      (List.range' 1 n).map (receiverPass n m typed other).memory.r := congrArg Prod.fst same
  have listed : n ∈ List.range' 1 n := by
    rw [List.mem_range'_1]
    omega
  have last := List.map_inj_left.mp remainders n listed
  rw [receiverPass_of_short short typed memory le_rfl,
    receiverPass_of_short short typed other le_rfl, if_neg (not_le.mpr short),
    if_neg (not_le.mpr short)] at last
  exact apart last

/-! ## Runs of the program -/

section Main

variable {memory : Memory} {input : Input}

/-- The memory of `main` when the receiver pass starts. -/
def sentMemory (memory : Memory) (input : Input) : Memory :=
  (senderPass input.n input.m
    { memory with
      g := readCells (input.n + 1) input.g memory.g
      a := readCells (input.m + 1) input.frame memory.a }).memory

theorem properGenerator_readCells (n m : ℕ) (g cells : Cells) :
    properGenerator n m (readCells (n + 1) g cells) ↔ properGenerator n m g := by
  simp [properGenerator, readCells_apply]

theorem main_shown (proper : properGenerator input.n input.m input.g) :
    (main memory input).shown =
      some (shown input.n input.receivedDegree input.received (sentMemory memory input)) := by
  rw [main, if_pos ((properGenerator_readCells _ _ _ _).mpr proper)]
  rfl

theorem sentMemory_g {p : ℕ} (inside : p ≤ input.n) :
    (sentMemory memory input).g p = input.g p := by
  change readCells (input.n + 1) input.g memory.g p = _
  rw [readCells_apply, if_pos (Nat.lt_succ_of_le inside)]

theorem sentMemory_a {p : ℕ} (inside : p ≤ input.m) :
    (sentMemory memory input).a p = input.frame p := by
  rw [sentMemory, senderPass_a, if_neg (by omega)]
  change readCells (input.m + 1) input.frame memory.a p = _
  rw [readCells_apply, if_pos (Nat.lt_succ_of_le inside)]

end Main

/-- The same bit in every cell of `a`. -/
def uniformMemory (g : Cells) (bit : BitVec 32) : Memory :=
  { a := fun _ => bit, g := g, r := fun _ => 0#32, div := fun _ => 0#32 }

theorem forgetsFrame_of_forgetsMemory {n m : ℕ} {g typed : Cells}
    (forgets : ForgetsMemory n g m typed) : ForgetsFrame n g m typed := by
  intro memory other degree otherDegree frame otherFrame proper otherProper
  rw [main_shown proper, main_shown otherProper]
  congr 1
  exact forgets _ _ (fun p inside => sentMemory_g inside) (fun p inside => sentMemory_g inside)

/-- The receiver pass prints the same remainder and verdict, whatever it finds in `a`, `r` and
`div`, exactly if the received frame is at least as long as the generator. This is so also for what
a sender pass can have left there. -/
theorem receiver_forgets_iff (n : ℕ) (g : Cells) (m : ℕ) (typed : Cells) :
    (ForgetsMemory n g m typed ↔ n ≤ m) ∧
      (g 0 ≠ 0#32 ∧ g n ≠ 0#32 → (ForgetsFrame n g m typed ↔ n ≤ m)) := by
  have zero_ne_one : (0#32 : BitVec 32) ≠ 1#32 := by decide
  constructor
  · constructor
    · intro forgets
      by_contra short
      apply shown_ne_of_short (not_le.mp short) typed _
        (forgets (uniformMemory g 0#32) (uniformMemory g 1#32) (fun _ _ => rfl) fun _ _ => rfl)
      exact zero_ne_one
    · exact fun long => forgetsMemory_of_long long g typed
  · intro ends
    have proper : properGenerator n n g := by
      simp only [properGenerator, lt_irrefl, false_or, not_not]
      exact ends
    constructor
    · intro forgets
      by_contra short
      have same := forgets (uniformMemory g 0#32) (uniformMemory g 0#32) n n (fun _ => 0#32)
        (fun _ => 1#32) proper proper
      rw [main_shown proper, main_shown proper] at same
      apply shown_ne_of_short (not_le.mp short) typed _ (Option.some.inj same)
      rw [sentMemory_a le_rfl, sentMemory_a le_rfl]
      exact zero_ne_one
    · exact fun long => forgetsFrame_of_forgetsMemory (forgetsMemory_of_long long g typed)

/-- The frame 00 or 11 is sent and a single bit 0 received, with the generator `x + 1`. -/
def shortInput (bit : BitVec 32) : Input :=
  { n := 1, g := fun _ => 1#32, m := 1, frame := fun _ => bit, receivedDegree := 0,
    received := fun _ => 0#32 }

/-- The received frame is accepted after the frame 00 and rejected after the frame 11. -/
theorem verdict_of_previous_frame :
    (main (uniformMemory (fun _ => 1#32) 0#32) (shortInput 0#32)).shown =
        some ([0#32], "\n No Error\n") ∧
      (main (uniformMemory (fun _ => 1#32) 0#32) (shortInput 1#32)).shown =
        some ([1#32], "\nError") ∧
      ¬ ForgetsFrame 1 (fun _ => 1#32) 0 (fun _ => 0#32) := by
  have accepted : (main (uniformMemory (fun _ => 1#32) 0#32) (shortInput 0#32)).shown =
      some ([0#32], "\n No Error\n") := by decide +kernel
  have rejected : (main (uniformMemory (fun _ => 1#32) 0#32) (shortInput 1#32)).shown =
      some ([1#32], "\nError") := by decide +kernel
  refine ⟨accepted, rejected, ?_⟩
  intro forgets
  have same : (main (uniformMemory (fun _ => 1#32) 0#32) (shortInput 0#32)).shown =
      (main (uniformMemory (fun _ => 1#32) 0#32) (shortInput 1#32)).shown :=
    forgets _ _ 1 1 _ _ (by decide) (by decide)
  rw [accepted, rejected] at same
  revert same
  decide

end NetLab.Crc
