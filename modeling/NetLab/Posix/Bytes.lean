import Mathlib.Data.List.TakeWhile
import Mathlib.Data.Vector.Basic
import Mathlib.Tactic.Common

/-!
# Bytes in memory

The strings of C, the little-endian layout of an unsigned 32-bit integer, and
what a system call does to a fixed buffer when it stores at its beginning.
-/

namespace NetLab.Posix

abbrev Byte := BitVec 8

/-- The string at the start of a piece of memory: what stands before its first zero. -/
def cString (memory : List Byte) : List Byte :=
  memory.takeWhile (· ≠ 0#8)

@[simp]
theorem cString_zero_cons (memory : List Byte) : cString (0#8 :: memory) = [] := by
  simp [cString]

theorem cString_cons {byte : Byte} (nonzero : byte ≠ 0#8) (memory : List Byte) :
    cString (byte :: memory) = byte :: cString memory :=
  List.takeWhile_cons_of_pos (by simpa using nonzero)

/-- Without a terminator the string runs on into the memory behind. -/
theorem cString_append {front : List Byte} (unterminated : 0#8 ∉ front)
    (back : List Byte) : cString (front ++ back) = front ++ cString back := by
  apply List.takeWhile_append_of_pos
  intro byte inside
  have nonzero : byte ≠ 0#8 := fun zero => unterminated (zero ▸ inside)
  simpa using nonzero

theorem cString_of_notMem {memory : List Byte} (unterminated : 0#8 ∉ memory) :
    cString memory = memory := by
  have none : cString [] = [] := rfl
  have whole := cString_append unterminated []
  rwa [none, List.append_nil] at whole

/-- A terminator hides the memory behind it. -/
theorem cString_append_of_mem {front : List Byte} (terminated : 0#8 ∈ front)
    (back : List Byte) : cString (front ++ back) = cString front := by
  induction front with
  | nil => cases terminated
  | cons byte front ih =>
      rw [List.cons_append]
      rcases eq_or_ne byte 0#8 with rfl | nonzero
      · simp
      · have rest : 0#8 ∈ front := (List.mem_cons.mp terminated).resolve_left nonzero.symm
        rw [cString_cons nonzero, cString_cons nonzero, ih rest]

/-- An unsigned 32-bit integer in memory, least significant byte first. -/
def littleEndian (value : BitVec 32) : List Byte :=
  [value.extractLsb' 0 8, value.extractLsb' 8 8, value.extractLsb' 16 8, value.extractLsb' 24 8]

/-- A buffer after `data` was stored from its first byte on. Bytes past its end go elsewhere. -/
def storePrefix {length : ℕ} (data : List Byte) (buffer : Vector Byte length) :
    Vector Byte length :=
  Vector.ofFn fun index => data[(index : ℕ)]?.getD buffer[index]

@[simp]
theorem storePrefix_nil {length : ℕ} (buffer : Vector Byte length) :
    storePrefix [] buffer = buffer := by
  ext index inside
  simp [storePrefix]

theorem getElem_storePrefix {length : ℕ} (data : List Byte) (buffer : Vector Byte length)
    {index : ℕ} (inside : index < length) :
    (storePrefix data buffer)[index] = data[index]?.getD buffer[index] := by
  simp [storePrefix]

/-- A buffer that is long enough starts with what was stored and keeps its old tail. -/
theorem toList_storePrefix {length : ℕ} {data : List Byte} (fits : data.length ≤ length)
    (buffer : Vector Byte length) :
    (storePrefix data buffer).toList = data ++ buffer.toList.drop data.length := by
  apply List.ext_getElem
  · simp
    omega
  · intro index inside _
    rcases Nat.lt_or_ge index data.length with stored | kept
    · simp [getElem_storePrefix, List.getElem_append_left stored, stored]
    · simp [getElem_storePrefix, List.getElem_append_right kept, kept]

/-- What is stored first is there, even where the rest runs over the end. -/
theorem take_toList_storePrefix {length count : ℕ} {data : List Byte} (stored : count ≤ data.length)
    (fits : count ≤ length) (buffer : Vector Byte length) :
    (storePrefix data buffer).toList.take count = data.take count := by
  apply List.ext_getElem
  · simp
    omega
  · intro index inside _
    have short : index < data.length := by
      rw [List.length_take] at inside
      omega
    simp [getElem_storePrefix, short]

section Printed

variable {length : ℕ} {data : List Byte} {buffer : Vector Byte length}

theorem cString_storePrefix (inside : data.length < length) (unterminated : 0#8 ∉ data)
    (tail : List Byte) :
    cString ((storePrefix data buffer).toList ++ tail) =
      data ++ cString (buffer[data.length] ::
        (buffer.toList.drop (data.length + 1) ++ tail)) := by
  have old : buffer.toList.drop data.length =
      buffer[data.length] :: buffer.toList.drop (data.length + 1) := by
    rw [List.drop_eq_getElem_cons (by simpa using inside), Vector.getElem_toList]
  rw [toList_storePrefix inside.le, List.append_assoc, cString_append unterminated, old,
    List.cons_append]

/-- A zero that was already there ends unterminated data. -/
theorem cString_storePrefix_of_zero (inside : data.length < length) (unterminated : 0#8 ∉ data)
    (zero : buffer[data.length] = 0#8) (tail : List Byte) :
    cString ((storePrefix data buffer).toList ++ tail) = data := by
  simp only [cString_storePrefix inside unterminated, zero, cString_zero_cons, List.append_nil]

theorem cString_storePrefix_ne (inside : data.length < length) (unterminated : 0#8 ∉ data)
    (nonzero : buffer[data.length] ≠ 0#8) (tail : List Byte) :
    cString ((storePrefix data buffer).toList ++ tail) ≠ data := by
  simp only [cString_storePrefix inside unterminated, cString_cons nonzero, ne_eq,
    List.append_right_eq_self, reduceCtorEq, not_false_eq_true]

/-- Data that is terminated or fills the buffer leaves nothing of the old bytes to be seen. -/
theorem cString_storePrefix_hidden (fits : data.length ≤ length)
    (hides : 0#8 ∈ data ∨ data.length = length) (tail : List Byte) :
    cString ((storePrefix data buffer).toList ++ tail) = cString (data ++ tail) := by
  rw [toList_storePrefix fits, List.append_assoc]
  rcases hides with terminated | full
  · rw [cString_append_of_mem terminated, cString_append_of_mem terminated]
  · rw [List.drop_of_length_le (by simp [full]), List.nil_append]

/-- A text that is stored with its terminator is found again, whatever the buffer held. -/
theorem cString_storePrefix_terminated (inside : data.length < length) (plain : 0#8 ∉ data)
    (buffer : Vector Byte length) (tail : List Byte) :
    cString ((storePrefix (data ++ [0#8]) buffer).toList ++ tail) = data := by
  have fits : (data ++ [0#8]).length ≤ length := by
    rw [List.length_append, List.length_singleton]
    exact inside
  rw [cString_storePrefix_hidden fits (Or.inl (by simp)), List.append_assoc,
    cString_append plain, List.singleton_append, cString_zero_cons, List.append_nil]

theorem cString_storePrefix_text (inside : data.length < length) (plain : 0#8 ∉ data)
    (buffer : Vector Byte length) :
    cString (storePrefix (data ++ [0#8]) buffer).toList = data := by
  simpa using cString_storePrefix_terminated inside plain buffer []

end Printed

end NetLab.Posix
