import NetLab.Imperative.Loop
import NetLab.Xdr.Routine

/-!
# The routine of `add_xdr.c`

Where the stream hands out memory for a whole record, `xdr_numbers` stores or loads the numbers
there itself; elsewhere it calls a routine for each member. What `XDR_INLINE` answers is up to the
stream and a parameter here.
-/

namespace NetLab.Rpc

open NetLab.Imperative NetLab.Posix NetLab.Xdr

/-- The record `numbers` of `add.x`. -/
structure NumbersRecord where
  size : BitVec 32
  nums : Vector (BitVec 32) 128

/-- The calls of `xdr_numbers` for the members. -/
def xdrMembers : Routine NumbersRecord :=
  (Routine.member NumbersRecord.size (fun size objp => { objp with size }) xdrInt).andThen
  (Routine.member NumbersRecord.nums (fun nums objp => { objp with nums }) (xdrVector xdrInt))

/-- The memory that is handed out, after `IXDR_PUT_LONG` of the size and of each number. -/
def putNumbers (objp : NumbersRecord) : List Byte :=
  forUp 0 128 (fun i buf => buf ++ bigEndian (objp.nums.toList.getD i 0#32)) (bigEndian objp.size)

/-- `*genp++ = IXDR_GET_LONG(buf)`, with the memory from `buf` on. -/
def getNumber (i : ℕ) (current : List Byte × Vector (BitVec 32) 128) :
    List Byte × Vector (BitVec 32) 128 :=
  (current.1.drop 4, current.2.setIfInBounds i (fromBigEndian current.1))

/-- `IXDR_GET_LONG` of the size and of each number. -/
def getNumbers (buf : List Byte) (objp : NumbersRecord) : NumbersRecord where
  size := fromBigEndian buf
  nums := (forUp 0 128 getNumber (buf.drop 4, objp.nums)).2

/-- `xdr_numbers` on a stream that hands out memory as `inlined` says. -/
def xdrNumbers (inlined : Stream → ℕ → Bool) : Routine NumbersRecord
  | .encoding written room, objp =>
      if inlined (.encoding written room) 516 then
        ⟨true, .encoding (written ++ putNumbers objp) (room - 516), objp⟩
      else xdrMembers (.encoding written room) objp
  | .decoding input, objp =>
      if inlined (.decoding input) 516 then
        ⟨true, .decoding (input.drop 516), getNumbers input objp⟩
      else xdrMembers (.decoding input) objp
  | .freeing, objp => xdrMembers .freeing objp

/-- The stream hands out memory only where it has as much. -/
structure Honest (inlined : Stream → ℕ → Bool) : Prop where
  encoding : ∀ written room count, inlined (.encoding written room) count = true → count ≤ room
  decoding : ∀ input count, inlined (.decoding input) count = true → count ≤ input.length

section Members

theorem fixed_xdrMembers : Fixed xdrMembers 516
    (fun objp => bigEndian objp.size ++ (Format.int.vector 128).image objp.nums)
    fun bytes objp =>
      { size := fromBigEndian (bytes.take 4),
        nums := (Format.int.vector 128).read (bytes.drop 4) objp.nums } :=
  (fixed_xdrInt.member fun _ => rfl).andThen ((Format.int.vector 128).fixed.member fun _ => rfl)

def numbersFormat : Format NumbersRecord where
  routine := xdrMembers
  width := 516
  image := _
  read := _
  fixed := fixed_xdrMembers
  read_image := by
    intro objp before
    rw [List.take_left' (length_bigEndian objp.size), List.drop_left' (length_bigEndian objp.size)]
    congr 1
    · exact Format.int.read_image objp.size before.size
    · exact (Format.int.vector 128).read_image objp.nums before.nums

end Members

section Loops

theorem putNumbers_eq (objp : NumbersRecord) :
    putNumbers objp = bigEndian objp.size ++ (Format.int.vector 128).image objp.nums := by
  have stored : putNumbers objp =
      bigEndian objp.size ++ (objp.nums.toList.take 128).flatMap bigEndian := by
    apply forUp_induction (fun i buf =>
      buf = bigEndian objp.size ++ (objp.nums.toList.take i).flatMap bigEndian)
      (Nat.zero_le 128)
    · simp
    · rintro i _ - below rfl
      have inside : i < objp.nums.toList.length := by simpa using below
      rw [List.take_succ_eq_append_getElem inside, List.flatMap_append, List.flatMap_singleton,
        List.getD_eq_getElem?_getD, List.getElem?_eq_getElem inside, Option.getD_some,
        List.append_assoc]
  rw [stored, List.take_of_length_le (by simp)]
  rfl

theorem getElem?_readEach {width : ℕ} {read : List Byte → BitVec 32 → BitVec 32}
    (bytes : List Byte) (objects : List (BitVec 32)) (i : ℕ) :
    (Fixed.readEach width read bytes objects)[i]? =
      objects[i]?.map (read ((bytes.drop (i * width)).take width)) := by
  induction objects generalizing bytes i with
  | nil => rfl
  | cons object objects ih =>
      cases i with
      | zero => simp [Fixed.readEach]
      | succ i =>
          rw [Fixed.readEach, List.getElem?_cons_succ, ih, List.getElem?_cons_succ, List.drop_drop,
            Nat.succ_mul, Nat.add_comm]

theorem getElem_read (bytes : List Byte) (nums : Vector (BitVec 32) 128) {j : ℕ}
    (inside : j < 128) :
    ((Format.int.vector 128).read bytes nums)[j] = fromBigEndian (bytes.drop (j * 4)) := by
  have read := @getElem?_readEach 4 (fun bytes _ => fromBigEndian bytes) bytes nums.toList j
  have listed : j < nums.toList.length := by simpa using inside
  rw [fromBigEndian_take, List.getElem?_eq_getElem listed, Option.map_some,
    List.getElem?_eq_some_iff] at read
  exact read.2

theorem getNumbers_nums (buf : List Byte) (objp : NumbersRecord) :
    ∀ j (inside : j < 128),
      (getNumbers buf objp).nums[j] = fromBigEndian (buf.drop (4 + j * 4)) := by
  have loaded : (forUp 0 128 getNumber (buf.drop 4, objp.nums)).1 = buf.drop (4 + 128 * 4) ∧
      ∀ j (_ : j < 128), j < 128 → (forUp 0 128 getNumber (buf.drop 4, objp.nums)).2[j] =
        fromBigEndian (buf.drop (4 + j * 4)) := by
    apply forUp_induction (fun i (current : List Byte × Vector (BitVec 32) 128) =>
      current.1 = buf.drop (4 + i * 4) ∧ ∀ j (_ : j < 128), j < i →
        current.2[j] = fromBigEndian (buf.drop (4 + j * 4))) (Nat.zero_le 128)
    · exact ⟨rfl, fun j _ none => absurd none (Nat.not_lt_zero j)⟩
    · rintro i current - below ⟨place, earlier⟩
      refine ⟨?_, ?_⟩
      · have next : 4 + i * 4 + 4 = 4 + (i + 1) * 4 := by omega
        simp only [getNumber, place, List.drop_drop, next]
      · intro j inside before
        rw [getNumber, Vector.getElem_setIfInBounds inside]
        split
        case isTrue same => rw [place, same]
        case isFalse other => exact earlier j inside (by omega)
  exact fun j inside => loaded.2 j inside inside

theorem getNumbers_eq (input : List Byte) (objp : NumbersRecord) :
    getNumbers input objp = numbersFormat.read (input.take 516) objp := by
  have size : fromBigEndian ((input.take 516).take 4) = fromBigEndian input := by
    rw [List.take_take, Nat.min_eq_left (by decide), fromBigEndian_take]
  have nums : (getNumbers input objp).nums =
      (Format.int.vector 128).read ((input.take 516).drop 4) objp.nums := by
    apply Vector.ext
    intro j inside
    have place : j * 4 + 4 ≤ 512 := by omega
    rw [getNumbers_nums input objp j inside, getElem_read _ _ inside, ← fromBigEndian_take,
      ← fromBigEndian_take (((input.take 516).drop 4).drop (j * 4)), List.drop_take,
      List.drop_take, List.take_take, Nat.min_eq_left (by omega), List.drop_drop]
  exact NumbersRecord.mk.injEq _ _ _ _ ▸ ⟨size.symm, nums⟩

end Loops

/-- Where the stream hands out memory, the routine does there what its calls for the members would
do; so the record comes back whichever way each side has taken. -/
theorem xdrNumbers_inlined {inlined : Stream → ℕ → Bool} (honest : Honest inlined) :
    (∀ stream objp, xdrNumbers inlined stream objp = xdrMembers stream objp) ∧
      Survives (xdrNumbers inlined) 516 := by
  have same : xdrNumbers inlined = xdrMembers := by
    funext stream objp
    cases stream with
    | encoding written room =>
        rw [xdrNumbers]
        split
        case isTrue granted =>
          have fits := honest.encoding written room 516 granted
          rw [putNumbers_eq, fixed_xdrMembers.encode written room objp fits]
        case isFalse => rfl
    | decoding input =>
        rw [xdrNumbers]
        split
        case isTrue granted =>
          have fits := honest.decoding input 516 granted
          rw [getNumbers_eq]
          exact (numbersFormat.fixed.decode input objp fits).symm
        case isFalse => rfl
    | freeing => rfl
  rw [same]
  exact ⟨fun _ _ => rfl, numbersFormat.survives⟩

/-- The answer of a stream in memory. -/
def xdrmemInline : Stream → ℕ → Bool
  | .encoding _ room, count => count ≤ room
  | .decoding input, count => count ≤ input.length
  | .freeing, _ => false

theorem xdrNumbers_xdrmem :
    (∀ stream objp, xdrNumbers xdrmemInline stream objp = xdrMembers stream objp) ∧
      Survives (xdrNumbers xdrmemInline) 516 :=
  xdrNumbers_inlined ⟨fun _ _ _ => of_decide_eq_true, fun _ _ => of_decide_eq_true⟩

end NetLab.Rpc
