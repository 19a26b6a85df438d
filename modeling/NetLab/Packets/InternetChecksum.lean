import NetLab.Packets.TcpChecksum

/-!
# `ComputeChecksum` is the Internet checksum

What it returns is the complement of the ones' complement sum, however often and
wherever the carries were folded on the way. A checksum that is stored in a word that
was zero makes the checksum of the whole zero, as `CreateIPHeader` relies on.
-/

namespace NetLab.Packets

open NetLab.Coding NetLab.Posix

/-- The values that `sum` takes in the loop of `ComputeChecksum` and for the byte that is left. -/
def runningSums (sum : ℕ) : List Byte → List ℕ
  | low :: high :: rest =>
      let added := sum + (low.toNat + 2 ^ 8 * high.toNat)
      let folded := if added.testBit 31 then foldCarry (2 ^ 16) added else added
      added :: folded :: runningSums folded rest
  | [last] => [sum + last.toNat]
  | [] => []

/-- The routine with another test for the fold in its loop. -/
def computeChecksumWhen (folds : ℕ → Bool) (data : List Byte) : BitVec 16 :=
  ~~~ BitVec.ofNat 16 (foldCarries (2 ^ 16) (addWordsWhen folds 0 data))

/-- A 16-bit word is stored at the index `k`, least significant byte first. -/
def storeShort (k : ℕ) (word : BitVec 16) (data : List Byte) : List Byte :=
  (data.set k (word.extractLsb' 0 8)).set (k + 1) (word.extractLsb' 8 8)

section Loop

variable {sum : ℕ}

theorem getLastD_runningSums (sum : ℕ) (data : List Byte) :
    (runningSums sum data).getLastD sum = addWords sum data := by
  induction sum, data using addWords.induct with
  | case1 sum low high rest added ih =>
      rw [runningSums, addWords, ← ih, List.getLastD_cons, List.getLastD_cons]
  | case2 sum last => rfl
  | case3 sum => rfl

theorem runningSums_lt (small : sum < 2 ^ 31) (data : List Byte) :
    ∀ value ∈ runningSums sum data, value < 2 ^ 31 + 2 ^ 16 := by
  induction sum, data using addWords.induct with
  | case1 sum low high rest added ih =>
      have low_lt := low.isLt
      have high_lt := high.isLt
      have added_lt : sum + (low.toNat + 2 ^ 8 * high.toNat) < 2 ^ 31 + 2 ^ 16 := by omega
      have folded_lt := foldHigh_lt added_lt
      rw [runningSums, List.forall_mem_cons, List.forall_mem_cons]
      refine ⟨added_lt, ?_, ih folded_lt⟩
      omega
  | case2 sum last =>
      have last_lt := last.isLt
      rw [runningSums, List.forall_mem_singleton]
      omega
  | case3 sum => exact List.forall_mem_nil _

theorem computeChecksumWhen_eq (folds : ℕ → Bool) (data : List Byte) :
    computeChecksumWhen folds data = computeChecksum data := by
  rw [computeChecksumWhen, foldCarries_eq (by decide), endAround_addWordsWhen, Nat.zero_add,
    computeChecksum_eq]

theorem littleWords_lt (data : List Byte) : ∀ word ∈ littleWords data, word < 2 ^ 16 := by
  induction data using littleWords.induct with
  | case1 low high rest ih =>
      have low_lt := low.isLt
      have high_lt := high.isLt
      exact List.forall_mem_cons.mpr ⟨by omega, ih⟩
  | case2 last =>
      have last_lt := last.isLt
      exact List.forall_mem_cons.mpr ⟨by omega, List.forall_mem_nil _⟩
  | case3 => exact List.forall_mem_nil _

theorem toNat_computeChecksum (data : List Byte) :
    (computeChecksum data).toNat = 0xFFFF - endAround (2 ^ 16) (littleWords data).sum := by
  have folded_lt : endAround (2 ^ 16) (littleWords data).sum < 2 ^ 16 := endAround_lt (by decide)
  rw [computeChecksum_eq, BitVec.toNat_not, BitVec.toNat_ofNat, Nat.mod_eq_of_lt folded_lt]

end Loop

/-- `ComputeChecksum` returns the complement of the ones' complement sum of the words. Its running
sum stays small, and the result is the same whenever the loop folds. -/
theorem computeChecksum_internet (data : List Byte) :
    computeChecksum data =
        ~~~ BitVec.ofNat 16 (onesComplementSum (2 ^ 16) (littleWords data)) ∧
      (computeChecksum data).toNat =
        (if (littleWords data).sum = 0 then 0xFFFF
          else 0xFFFF - (1 + ((littleWords data).sum - 1) % 65535)) ∧
      (∀ value ∈ runningSums 0 data, value < 2 ^ 31 + 2 ^ 16) ∧
      ∀ folds, computeChecksumWhen folds data = computeChecksum data := by
  refine ⟨?_, ?_, runningSums_lt (by decide) data, ?_⟩
  · rw [computeChecksum_eq, onesComplementSum_eq (by decide) (littleWords_lt data)]
  · rw [toNat_computeChecksum, endAround]
    split
    case isTrue => rfl
    case isFalse =>
      rw [Nat.add_comm (_ % _) 1]
      rfl
  · exact fun folds => computeChecksumWhen_eq folds data

/-! ## Stored checksums -/

section Stored

variable {front : List Byte}

theorem sum_littleWords_wordBytes (word : BitVec 16) :
    (littleWords (wordBytes word)).sum = word.toNat := by
  have single := littleWords_flatMap [word]
  rw [List.flatMap_singleton] at single
  rw [single]
  simp

theorem sum_littleWords_around (even : Even front.length) (word : BitVec 16) (back : List Byte) :
    (littleWords (front ++ wordBytes word ++ back)).sum =
      (littleWords (front ++ wordBytes 0#16 ++ back)).sum + word.toNat := by
  have words : ∀ word : BitVec 16, Even (wordBytes word).length := fun _ => even_two
  simp only [List.append_assoc, sum_littleWords_append even, sum_littleWords_append (words _),
    sum_littleWords_wordBytes]
  simp only [BitVec.toNat_zero]
  omega

/-- A sum that is increased by the complement of its value is a multiple of 65535, but not zero. -/
theorem endAround_add_complement (sum : ℕ) :
    endAround (2 ^ 16) (sum + (0xFFFF - endAround (2 ^ 16) sum)) = 0xFFFF := by
  have folded_lt : endAround (2 ^ 16) sum < 2 ^ 16 := endAround_lt (by decide)
  have congruent := endAround_modEq (2 ^ 16) sum
  have zero := @endAround_eq_zero_iff (2 ^ 16) sum
  apply (endAround_eq_max_iff (by decide)).mpr
  generalize endAround (2 ^ 16) sum = folded at *
  simp only [Nat.ModEq, Nat.reducePow, Nat.reduceSub] at congruent folded_lt ⊢
  omega

theorem computeChecksum_around (even : Even front.length) (back : List Byte) :
    computeChecksum (front ++
      wordBytes (computeChecksum (front ++ wordBytes 0#16 ++ back)) ++ back) = 0#16 := by
  apply BitVec.eq_of_toNat_eq
  rw [toNat_computeChecksum, sum_littleWords_around even, toNat_computeChecksum,
    endAround_add_complement]
  rfl

theorem storeShort_append (front back : List Byte) (first second : Byte) (word : BitVec 16) :
    storeShort front.length word (front ++ first :: second :: back) =
      front ++ wordBytes word ++ back := by
  simp [storeShort, wordBytes]

theorem exists_word {k : ℕ} {data : List Byte} (inside : k + 1 < data.length) :
    ∃ front first second back, data = front ++ first :: second :: back ∧ front.length = k := by
  refine ⟨data.take k, data[k], data[k + 1], data.drop (k + 2), ?_, ?_⟩
  · rw [← List.drop_eq_getElem_cons, ← List.drop_eq_getElem_cons, List.take_append_drop]
  · rw [List.length_take]
    omega

end Stored

/-- A checksum that is stored in an aligned word of the array, which was zero when it was computed,
verifies. -/
theorem computeChecksum_stored (data : List Byte) (k : ℕ) (aligned : Even k)
    (inside : k + 1 < data.length) :
    computeChecksum (storeShort k (computeChecksum (storeShort k 0#16 data))
      (storeShort k 0#16 data)) = 0#16 := by
  rcases exists_word inside with ⟨front, first, second, back, rfl, rfl⟩
  have cleared : front ++ wordBytes 0#16 ++ back = front ++ 0#8 :: 0#8 :: back := by
    simp [wordBytes]
  have verifies := computeChecksum_around aligned back
  rw [storeShort_append, cleared, storeShort_append]
  rwa [cleared] at verifies

theorem computeChecksum_stored_three :
    computeChecksum (storeShort 0 (computeChecksum (storeShort 0 0#16 [1#8, 2#8, 3#8]))
      (storeShort 0 0#16 [1#8, 2#8, 3#8])) = 0#16 :=
  computeChecksum_stored [1#8, 2#8, 3#8] 0 (by decide) (by decide)

/-! ## The IP header -/

theorem littleBytes_two (word : BitVec 16) : Memory.littleBytes 2 word.toNat = wordBytes word := by
  have low : BitVec.ofNat 8 word.toNat = word.extractLsb' 0 8 := by
    apply BitVec.eq_of_toNat_eq
    simp
  have high : BitVec.ofNat 8 (word.toNat >>> 8) = word.extractLsb' 8 8 := by
    apply BitVec.eq_of_toNat_eq
    simp
  rw [wordBytes, ← low, ← high]
  rfl

/-- The header that `CreateIPHeader` returns verifies, whatever the memory from `malloc` held. -/
theorem createIPHeader_verifies (malloc : Memory) :
    computeChecksum ((createIPHeader malloc).bytes 0 20) = 0#16 := by
  have parts (header : Memory) : header.bytes 0 20 =
      header.bytes 0 10 ++ header.bytes 10 2 ++ header.bytes 12 8 := by
    rw [← Memory.bytes_add header 0 10 2, ← Memory.bytes_add header 0 12 8]
  have loaded : ∀ {field value}, (field, value) ∈ ipAssigned →
      iphdr.load (iphdr.assign malloc 0 ipAssigned) 0 field = value % 2 ^ (iphdr.span field).2 :=
    fun assigned => Struct.load_assign (by decide) assigned
  have ihl : iphdr.load (iphdr.assign malloc 0 ipAssigned) 0 .ihl = 5 :=
    (@loaded .ihl (iphdr.sizeOf / 4) (by decide)).trans (by decide)
  have check : iphdr.load (iphdr.assign malloc 0 ipAssigned) 0 .check = 0 :=
    @loaded .check 0 (by decide)
  have zero : Memory.littleBytes 2 (iphdr.load (iphdr.assign malloc 0 ipAssigned) 0 .check) =
      (iphdr.assign malloc 0 ipAssigned).bytes 10 2 ++ List.replicate 0 0#8 :=
    Memory.littleBytes_load rfl rfl le_rfl
  have stored (value : ℕ) : iphdr.store (iphdr.assign malloc 0 ipAssigned) 0 .check value =
      (iphdr.assign malloc 0 ipAssigned).store 80 16 value :=
    rfl
  rw [check, List.replicate_zero, List.append_nil] at zero
  simp only [createIPHeader, ihl, stored]
  generalize iphdr.assign malloc 0 ipAssigned = header at zero ⊢
  simp only [Nat.reduceMul, parts]
  simp (disch := decide) only [Memory.bytes_store, Memory.bytes_store_of_disjoint, ← zero,
    littleBytes_two]
  have even : Even (header.bytes 0 10).length := by
    rw [Memory.length_bytes]
    decide
  exact computeChecksum_around even _

end NetLab.Packets
