import NetLab.Coding.OnesComplement
import NetLab.Posix.Bytes
import Mathlib.Algebra.Order.BigOperators.Group.List
import Mathlib.Data.List.Induction

/-!
# The checksums of `rawsockets` and of `tcp_injection`

Both add the 16-bit words of their argument and complement the folded sum. `csum`
folds the carries exactly twice, `ComputeChecksum` until none is left. The two
values differ for sums that two foldings do not settle.
-/

namespace NetLab.Packets

open NetLab.Coding NetLab.Posix

/-- `csum`, which server and client of `rawsockets/basic` have. An `unsigned long` has 64 bits. -/
def csum (buf : List (BitVec 16)) : BitVec 16 :=
  let sum := buf.foldl (fun sum word => (sum + word.toNat) % 2 ^ 64) 0
  let sum := sum / 2 ^ 16 + sum % 2 ^ 16
  let sum := (sum + sum / 2 ^ 16) % 2 ^ 64
  ~~~ BitVec.ofNat 16 sum

/-- The first loop of `ComputeChecksum`, and the byte that is left over. -/
def addWords (sum : ℕ) : List Byte → ℕ
  | low :: high :: rest =>
      let added := sum + (low.toNat + 2 ^ 8 * high.toNat)
      addWords (if added.testBit 31 then foldCarry (2 ^ 16) added else added) rest
  | [last] => sum + last.toNat
  | [] => sum

/-- The loop with another test in the place of that of bit 31. -/
def addWordsWhen (folds : ℕ → Bool) (sum : ℕ) : List Byte → ℕ
  | low :: high :: rest =>
      let added := sum + (low.toNat + 2 ^ 8 * high.toNat)
      addWordsWhen folds (if folds added then foldCarry (2 ^ 16) added else added) rest
  | [last] => sum + last.toNat
  | [] => sum

def computeChecksum (data : List Byte) : BitVec 16 :=
  ~~~ BitVec.ofNat 16 (foldCarries (2 ^ 16) (addWords 0 data))

/-- The words that bytes in memory hold, least significant byte first. -/
def littleWords : List Byte → List ℕ
  | low :: high :: rest => (low.toNat + 2 ^ 8 * high.toNat) :: littleWords rest
  | [last] => [last.toNat]
  | [] => []

def wordBytes (word : BitVec 16) : List Byte :=
  [word.extractLsb' 0 8, word.extractLsb' 8 8]

section ComputeChecksum

/-- The test of bit 31 keeps the sum below it, before the next word is added. -/
theorem foldHigh_lt {sum : ℕ} (small : sum < 2 ^ 31 + 2 ^ 16) :
    (if sum.testBit 31 then foldCarry (2 ^ 16) sum else sum) < 2 ^ 31 := by
  split
  case isTrue =>
    rw [foldCarry]
    omega
  case isFalse unset =>
    rw [Nat.testBit_eq_decide_div_mod_eq, decide_eq_true_eq] at unset
    omega

/-- The `long` that `ComputeChecksum` adds up in stays small, however many words there are. -/
theorem addWords_lt {sum : ℕ} (small : sum < 2 ^ 31) (data : List Byte) :
    addWords sum data < 2 ^ 31 + 2 ^ 8 := by
  induction sum, data using addWords.induct with
  | case1 sum low high rest added ih =>
      rw [addWords]
      apply ih
      apply foldHigh_lt
      have low_lt := low.isLt
      have high_lt := high.isLt
      change sum + (low.toNat + 2 ^ 8 * high.toNat) < 2 ^ 31 + 2 ^ 16
      omega
  | case2 sum last =>
      rw [addWords]
      have last_lt := last.isLt
      omega
  | case3 sum =>
      rw [addWords]
      omega

theorem addWords_eq_when (sum : ℕ) (data : List Byte) :
    addWords sum data = addWordsWhen (fun added => added.testBit 31) sum data := by
  induction sum, data using addWords.induct with
  | case1 sum low high rest added ih => rw [addWords, addWordsWhen, ih]
  | case2 sum last => rfl
  | case3 sum => rfl

/-- Whenever the loop folds, the ones' complement value of the sum stays the same. -/
theorem endAround_addWordsWhen (folds : ℕ → Bool) (sum : ℕ) (data : List Byte) :
    endAround (2 ^ 16) (addWordsWhen folds sum data) =
      endAround (2 ^ 16) (sum + (littleWords data).sum) := by
  induction sum, data using addWordsWhen.induct folds with
  | case1 sum low high rest added ih =>
      have folded : endAround (2 ^ 16) (if folds added then foldCarry (2 ^ 16) added else added) =
          endAround (2 ^ 16) added := by
        split
        case isTrue => exact endAround_foldCarry (by decide)
        case isFalse => rfl
      rw [addWordsWhen, ih, endAround_add_congr (by decide) folded, littleWords, List.sum_cons,
        ← Nat.add_assoc]
  | case2 sum last => simp [addWordsWhen, littleWords]
  | case3 sum => simp [addWordsWhen, littleWords]

theorem endAround_addWords (sum : ℕ) (data : List Byte) :
    endAround (2 ^ 16) (addWords sum data) =
      endAround (2 ^ 16) (sum + (littleWords data).sum) := by
  rw [addWords_eq_when, endAround_addWordsWhen]

theorem computeChecksum_eq (data : List Byte) :
    computeChecksum data = ~~~ BitVec.ofNat 16 (endAround (2 ^ 16) (littleWords data).sum) := by
  rw [computeChecksum, foldCarries_eq (by decide), endAround_addWords, Nat.zero_add]

end ComputeChecksum

section Agreement

variable {words : List (BitVec 16)}

def total (words : List (BitVec 16)) : ℕ :=
  (words.map BitVec.toNat).sum

theorem total_le (words : List (BitVec 16)) : total words ≤ words.length * 65535 := by
  have small : ∀ digit ∈ words.map BitVec.toNat, digit ≤ 65535 := by
    intro digit listed
    rcases List.mem_map.mp listed with ⟨word, _, rfl⟩
    exact Nat.le_of_lt_succ word.isLt
  simpa [total] using List.sum_le_card_nsmul _ _ small

theorem littleWords_flatMap (words : List (BitVec 16)) :
    littleWords (words.flatMap wordBytes) = words.map BitVec.toNat := by
  induction words with
  | nil => rfl
  | cons word words ih =>
      rw [List.flatMap_cons, wordBytes, List.cons_append, List.cons_append, List.nil_append,
        littleWords, ih, List.map_cons]
      congr 1
      simp only [BitVec.extractLsb'_toNat]
      have word_lt := word.isLt
      omega

theorem foldl_add_eq (few : words.length < 2 ^ 31) :
    words.foldl (fun sum word => (sum + word.toNat) % 2 ^ 64) 0 = total words := by
  induction words using List.reverseRecOn with
  | nil => rfl
  | append_singleton words word ih =>
      rw [List.length_append, List.length_singleton] at few
      have bounded := total_le words
      have word_lt := word.isLt
      have more : total (words ++ [word]) = total words + word.toNat := by
        simp [total]
      rw [List.foldl_append, List.foldl_cons, List.foldl_nil, ih (Nat.lt_of_succ_lt few), more]
      apply Nat.mod_eq_of_lt
      omega

theorem csum_eq (few : words.length < 2 ^ 31) :
    csum words = ~~~ BitVec.ofNat 16 (foldCarry (2 ^ 16) (foldCarry (2 ^ 16) (total words))) := by
  have swapped : total words / 2 ^ 16 + total words % 2 ^ 16 = foldCarry (2 ^ 16) (total words) :=
    Nat.add_comm _ _
  simp only [csum, foldl_add_eq few, swapped]
  congr 1
  apply BitVec.eq_of_toNat_eq
  simp only [BitVec.toNat_ofNat, foldCarry]
  omega

/-- Two foldings leave at most one carry, and the value is right when they leave none. -/
theorem ofNat_foldCarry_eq_iff {sum : ℕ} (small : sum < 2 ^ 47) :
    BitVec.ofNat 16 (foldCarry (2 ^ 16) (foldCarry (2 ^ 16) sum)) =
        BitVec.ofNat 16 (endAround (2 ^ 16) sum) ↔
      foldCarry (2 ^ 16) (foldCarry (2 ^ 16) sum) < 2 ^ 16 := by
  have same : endAround (2 ^ 16) (foldCarry (2 ^ 16) (foldCarry (2 ^ 16) sum)) =
      endAround (2 ^ 16) sum := by
    rw [endAround_foldCarry (by decide), endAround_foldCarry (by decide)]
  have twice_lt : foldCarry (2 ^ 16) (foldCarry (2 ^ 16) sum) < 2 ^ 17 - 1 := by
    simp only [foldCarry]
    omega
  generalize foldCarry (2 ^ 16) (foldCarry (2 ^ 16) sum) = twice at same twice_lt ⊢
  constructor
  · intro equal
    by_contra carry
    have digits := congrArg BitVec.toNat equal
    have settled : endAround (2 ^ 16) twice = twice - (2 ^ 16 - 1) := by
      rw [endAround, if_neg (by omega)]
      omega
    rw [BitVec.toNat_ofNat, BitVec.toNat_ofNat, ← same, settled] at digits
    omega
  · intro below
    rw [← same, endAround_of_lt (by decide) below]

/-- Two foldings are enough for the words of any packet, which is shorter by far. -/
theorem twice_lt_of_length_le (short : words.length ≤ 65538) :
    foldCarry (2 ^ 16) (foldCarry (2 ^ 16) (total words)) < 2 ^ 16 := by
  have bounded := total_le words
  have most : total words ≤ 65538 * 65535 := bounded.trans (Nat.mul_le_mul_right _ short)
  simp only [foldCarry]
  omega

/-- Words with all bits set, and a last one that is 1. -/
def ones (many : ℕ) : List (BitVec 16) :=
  List.replicate many 0xFFFF#16 ++ [1#16]

theorem total_ones (many : ℕ) : total (ones many) = many * 65535 + 1 := by
  simp [total, ones]

end Agreement

/-- The two routines agree exactly on the words whose sum has no carry left after two foldings. -/
theorem csum_eq_computeChecksum_iff (words : List (BitVec 16))
    (representable : 2 * words.length < 2 ^ 31) :
    csum words = computeChecksum (words.flatMap wordBytes) ↔
      foldCarry (2 ^ 16) (foldCarry (2 ^ 16) (total words)) < 2 ^ 16 := by
  have few : words.length < 2 ^ 31 := by omega
  have small : total words < 2 ^ 47 := by
    have bounded := total_le words
    omega
  rw [csum_eq few, computeChecksum_eq, littleWords_flatMap, ← total, BitVec.not_inj,
    ofNat_foldCarry_eq_iff small]

theorem csum_eq_computeChecksum_two :
    csum [0xFFFF#16, 1#16] = computeChecksum ([0xFFFF#16, 1#16].flatMap wordBytes) :=
  (csum_eq_computeChecksum_iff [0xFFFF#16, 1#16] (by decide)).mpr (by decide)

/-- The sum of 65538 words of ones and of 1 is 65536 * 65536 + 65535: folded once it is 131071,
which leaves a carry when it is folded again. -/
theorem csum_loses_carry :
    csum (ones 65538) ≠ computeChecksum ((ones 65538).flatMap wordBytes) := by
  have few : (ones 65538).length < 2 ^ 31 := by
    rw [ones, List.length_append, List.length_replicate]
    decide
  rw [csum_eq few, computeChecksum_eq, littleWords_flatMap, ← total, total_ones, ne_eq,
    BitVec.not_inj, ofNat_foldCarry_eq_iff (by decide)]
  decide

end NetLab.Packets
