import NetLab.Posix.Bytes
import Mathlib.Data.Nat.Bitwise

/-!
# Structures in memory

The System V rules for where the members of a `struct` lie. An integer takes the
next address that is a multiple of its size. A bit-field takes the next bits that
are free, unless it would cross a boundary of its type; then it starts there. Bits
are counted from the least significant one of each byte on, so both are a number
of bits at a position, and reading and writing are the same for them.
-/

namespace NetLab.Posix

abbrev Memory :=
  ℕ → Byte

namespace Memory

def zeros : Memory :=
  fun _ => 0#8

def bit (memory : Memory) (position : ℕ) : Bool :=
  (memory (position / 8)).getLsbD (position % 8)

def load (memory : Memory) (start width : ℕ) : ℕ :=
  Nat.ofBits fun index : Fin width => memory.bit (start + index)

def store (memory : Memory) (start width value : ℕ) : Memory :=
  fun address => BitVec.ofNat 8 <| Nat.ofBits fun index : Fin 8 =>
    if start ≤ 8 * address + index ∧ 8 * address + index < start + width then
      value.testBit (8 * address + index - start)
    else memory.bit (8 * address + index)

/-- `memcpy`, from one piece of memory to another. -/
def copy (memory : Memory) (target : ℕ) (source : Memory) (count : ℕ) : Memory :=
  fun address =>
    if target ≤ address ∧ address < target + count then source (address - target)
    else memory address

def bytes (memory : Memory) (first count : ℕ) : List Byte :=
  (List.range' first count).map memory

/-- The bytes of a number in memory, least significant one first. -/
def littleBytes (count value : ℕ) : List Byte :=
  (List.range count).map fun index => BitVec.ofNat 8 (value >>> (8 * index))

variable {memory source : Memory} {start width value address origin count many : ℕ}

theorem bit_store (position : ℕ) : (memory.store start width value).bit position =
    if start ≤ position ∧ position < start + width then value.testBit (position - start)
    else memory.bit position := by
  have whole := Nat.div_add_mod position 8
  have inside : position % 8 < 8 := Nat.mod_lt _ (by decide)
  simp only [bit, store, BitVec.getLsbD_ofNat, inside, decide_true, Bool.true_and,
    Nat.testBit_ofBits_lt _ _ inside, whole]

theorem testBit_load (index : ℕ) : (memory.load start width).testBit index =
    (decide (index < width) && memory.bit (start + index)) := by
  rw [load, Nat.testBit_ofBits]
  split
  case isTrue inside => simp [inside]
  case isFalse outside => simp [outside]

theorem load_lt : memory.load start width < 2 ^ width :=
  Nat.ofBits_lt_two_pow _

theorem load_congr (same : ∀ index < width,
    memory ((start + index) / 8) = source ((start + index) / 8)) :
    memory.load start width = source.load start width := by
  simp only [load, bit, same _ (Fin.is_lt _)]

/-- Some of the bits that were stored are read back. -/
@[simp]
theorem load_store_within {first many : ℕ} (above : start ≤ first)
    (below : first + many ≤ start + width) :
    (memory.store start width value).load first many = value >>> (first - start) % 2 ^ many := by
  apply Nat.eq_of_testBit_eq
  intro index
  rw [testBit_load, bit_store, Nat.testBit_mod_two_pow, Nat.testBit_shiftRight]
  rcases Nat.lt_or_ge index many with read | beyond
  · rw [if_pos (by omega), show first + index - start = first - start + index by omega]
  · simp [not_lt.mpr beyond]

theorem load_store_self :
    (memory.store start width value).load start width = value % 2 ^ width := by
  rw [load_store_within le_rfl le_rfl, Nat.sub_self, Nat.shiftRight_zero]

@[simp]
theorem load_store_of_disjoint {first many : ℕ}
    (apart : first + many ≤ start ∨ start + width ≤ first) :
    (memory.store start width value).load first many = memory.load first many := by
  apply Nat.eq_of_testBit_eq
  intro index
  rw [testBit_load, testBit_load, bit_store]
  rcases Nat.lt_or_ge index many with read | beyond
  · rw [if_neg (by omega)]
  · simp [not_lt.mpr beyond]

/-- A number is read in two parts, the lower one first. -/
theorem load_add (low high : ℕ) : memory.load start (low + high) =
    memory.load start low + 2 ^ low * memory.load (start + low) high := by
  apply Nat.eq_of_testBit_eq
  intro index
  rw [Nat.add_comm (memory.load start low), Nat.testBit_two_pow_mul_add _ load_lt]
  simp only [testBit_load]
  split
  case isTrue lower => simp [lower, Nat.lt_add_right high lower]
  case isFalse upper =>
    have place : start + low + (index - low) = start + index := by omega
    rw [place]
    congr 1
    exact decide_eq_decide.mpr (by omega)

@[simp]
theorem load_zeros : zeros.load start width = 0 := by
  apply Nat.eq_of_testBit_eq
  intro index
  simp [testBit_load, bit, zeros]

theorem apply_eq_of_bit {byte : Byte}
    (same : ∀ index < 8, memory.bit (8 * address + index) = byte.getLsbD index) :
    memory address = byte := by
  apply BitVec.eq_of_getLsbD_eq
  intro index inside
  rw [← same index inside, bit, Nat.mul_add_div (by decide), Nat.div_eq_of_lt inside,
    Nat.mul_add_mod, Nat.mod_eq_of_lt inside, Nat.add_zero]

theorem bit_eq {index : ℕ} (inside : index < 8) :
    memory.bit (8 * address + index) = (memory address).getLsbD index := by
  rw [bit, Nat.mul_add_div (by decide), Nat.div_eq_of_lt inside, Nat.mul_add_mod,
    Nat.mod_eq_of_lt inside, Nat.add_zero]

theorem store_apply_of_disjoint (apart : start + width ≤ 8 * address ∨ 8 * address + 8 ≤ start) :
    memory.store start width value address = memory address := by
  apply apply_eq_of_bit
  intro index inside
  rw [bit_store, if_neg (by omega), bit_eq inside]

section Bytes

variable {first : ℕ}

theorem bytes_add (memory : Memory) (first count more : ℕ) :
    memory.bytes first (count + more) =
      memory.bytes first count ++ memory.bytes (first + count) more := by
  rw [bytes, bytes, bytes, ← List.map_append, ← List.range'_append, Nat.one_mul]

@[simp]
theorem length_littleBytes : (littleBytes count value).length = count := by
  simp [littleBytes]

@[simp]
theorem length_bytes : (memory.bytes first count).length = count := by
  simp [bytes]

theorem bytes_congr (same : ∀ index < count, memory (first + index) = source (origin + index)) :
    memory.bytes first count = source.bytes origin count := by
  apply List.ext_getElem
  · simp
  · intro index inside _
    simpa [bytes] using same index (by simpa using inside)

theorem bytes_copy_of_disjoint {target size : ℕ}
    (apart : first + count ≤ target ∨ target + size ≤ first) :
    (memory.copy target source size).bytes first count = memory.bytes first count := by
  apply bytes_congr
  intro index inside
  rw [copy, if_neg (by omega)]

theorem bytes_copy :
    (memory.copy first source count).bytes first count = source.bytes 0 count := by
  apply bytes_congr
  intro index inside
  rw [copy, if_pos (by omega), Nat.add_sub_cancel_left, Nat.zero_add]

theorem bytes_store_of_disjoint
    (apart : start + width ≤ 8 * first ∨ 8 * (first + count) ≤ start) :
    (memory.store start width value).bytes first count = memory.bytes first count := by
  apply bytes_congr
  intro index inside
  exact store_apply_of_disjoint (by omega)

theorem bytes_store (begins : start = 8 * first) (all : width = 8 * count) :
    (memory.store start width value).bytes first count = littleBytes count value := by
  subst begins all
  apply List.ext_getElem
  · simp
  · intro index inside _
    rw [length_bytes] at inside
    simp only [bytes, littleBytes, List.getElem_map, List.getElem_range', List.getElem_range,
      Nat.one_mul]
    apply apply_eq_of_bit
    intro lower lower_lt
    rw [bit_store, if_pos (by omega), BitVec.getLsbD_ofNat, Nat.testBit_shiftRight,
      show 8 * (first + index) + lower - 8 * first = 8 * index + lower by omega]
    simp [lower_lt]

theorem littleBytes_load (begins : start = 8 * first) (all : width = 8 * many)
    (more : many ≤ count) : littleBytes count (memory.load start width) =
      memory.bytes first many ++ List.replicate (count - many) 0#8 := by
  subst begins all
  apply List.ext_getElem
  · simp [more]
  · intro index inside _
    simp only [littleBytes, List.getElem_map, List.getElem_range]
    apply BitVec.eq_of_getLsbD_eq
    intro lower lower_lt
    rw [BitVec.getLsbD_ofNat, Nat.testBit_shiftRight, testBit_load]
    rcases Nat.lt_or_ge index many with read | beyond
    · rw [List.getElem_append_left (by simpa using read)]
      simp only [bytes, List.getElem_map, List.getElem_range', Nat.one_mul]
      rw [show 8 * first + (8 * index + lower) = 8 * (first + index) + lower by omega,
        bit_eq lower_lt]
      simp [lower_lt, show 8 * index + lower < 8 * many by omega]
    · rw [List.getElem_append_right (by simpa using beyond)]
      simp [show ¬ 8 * index + lower < 8 * many by omega]

end Bytes

end Memory

section Layout

/-- The declaration of a member: an integer of some bytes, or some bits of one. -/
inductive Member where
  | integer (size : ℕ)
  | bitField (size width : ℕ)
deriving DecidableEq, Repr

/-- The least multiple of an alignment that is not below a position. -/
def roundUp (position alignment : ℕ) : ℕ :=
  position + (alignment - position % alignment) % alignment

theorem dvd_roundUp {alignment : ℕ} (positive : 0 < alignment) (position : ℕ) :
    alignment ∣ roundUp position alignment := by
  have within : position % alignment < alignment := Nat.mod_lt _ positive
  have whole := Nat.div_add_mod position alignment
  rcases Nat.eq_zero_or_pos (position % alignment) with aligned | beyond
  · rw [roundUp, aligned, Nat.sub_zero, Nat.mod_self, Nat.add_zero]
    exact Nat.dvd_of_mod_eq_zero aligned
  · rw [roundUp, Nat.mod_eq_of_lt (Nat.sub_lt positive beyond)]
    exact ⟨position / alignment + 1, by rw [Nat.mul_add]; omega⟩

namespace Member

def width : Member → ℕ
  | integer size => 8 * size
  | bitField _ width => width

def size : Member → ℕ
  | integer size => size
  | bitField size _ => size

/-- The first bit of a member when the bits from `free` on are not used yet. -/
def start (free : ℕ) : Member → ℕ
  | integer size => roundUp free (8 * size)
  | bitField size width =>
      if free % (8 * size) + width ≤ 8 * size then free else roundUp free (8 * size)

theorem le_start (free : ℕ) (member : Member) : free ≤ member.start free := by
  cases member with
  | integer size => exact Nat.le_add_right _ _
  | bitField size width =>
      rw [start]
      split
      case isTrue => exact le_rfl
      case isFalse => exact Nat.le_add_right _ _

end Member

/-- A `struct`: its members in the order of their declarations. -/
abbrev Struct (Field : Type*) :=
  List (Field × Member)

namespace Struct

variable {Field : Type*} [DecidableEq Field]

/-- First bit and number of bits of a member, with the bits below `free` in use. -/
def spanFrom (field : Field) : ℕ → Struct Field → ℕ × ℕ
  | _, [] => (0, 0)
  | free, (name, member) :: members =>
      if name = field then (member.start free, member.width)
      else spanFrom field (member.start free + member.width) members

def span (layout : Struct Field) (field : Field) : ℕ × ℕ :=
  spanFrom field 0 layout

def ends (layout : Struct Field) : ℕ :=
  layout.foldl (fun free entry => entry.2.start free + entry.2.width) 0

/-- `sizeof`: the struct ends at a multiple of the greatest alignment of a member. -/
def sizeOf (layout : Struct Field) : ℕ :=
  roundUp layout.ends (8 * (layout.map fun entry => entry.2.size).foldl max 1) / 8

/-- A member of a struct that begins at the address `base`. -/
def load (layout : Struct Field) (memory : Memory) (base : ℕ) (field : Field) : ℕ :=
  memory.load (8 * base + (layout.span field).1) (layout.span field).2

def store (layout : Struct Field) (memory : Memory) (base : ℕ) (field : Field) (value : ℕ) :
    Memory :=
  memory.store (8 * base + (layout.span field).1) (layout.span field).2 value

def assign (layout : Struct Field) (memory : Memory) (base : ℕ)
    (assignments : List (Field × ℕ)) : Memory :=
  assignments.foldl (fun memory entry => layout.store memory base entry.1 entry.2) memory

theorem spanFrom_ge (field : Field) (free : ℕ) (layout : Struct Field) :
    spanFrom field free layout = (0, 0) ∨ free ≤ (spanFrom field free layout).1 := by
  induction layout generalizing free with
  | nil => exact Or.inl rfl
  | cons entry members ih =>
      rw [spanFrom]
      split
      case isTrue => exact Or.inr (Member.le_start free entry.2)
      case isFalse =>
        have begins := Member.le_start free entry.2
        rcases ih (entry.2.start free + entry.2.width) with missing | behind
        · exact Or.inl missing
        · exact Or.inr (by omega)

/-- Two members have no bit in common. -/
theorem spanFrom_disjoint {left right : Field} (distinct : left ≠ right) (free : ℕ)
    (layout : Struct Field) :
    (spanFrom left free layout).1 + (spanFrom left free layout).2 ≤
        (spanFrom right free layout).1 ∨
      (spanFrom right free layout).1 + (spanFrom right free layout).2 ≤
        (spanFrom left free layout).1 := by
  induction layout generalizing free with
  | nil => exact Or.inl (Nat.zero_le _)
  | cons entry members ih =>
      simp only [spanFrom]
      have later := fun field => spanFrom_ge field (entry.2.start free + entry.2.width) members
      by_cases isLeft : entry.1 = left
      · rw [if_pos isLeft, if_neg (isLeft ▸ distinct)]
        rcases later right with missing | behind
        · exact Or.inr (by simp [missing])
        · exact Or.inl behind
      · by_cases isRight : entry.1 = right
        · rw [if_neg isLeft, if_pos isRight]
          rcases later left with missing | behind
          · exact Or.inl (by simp [missing])
          · exact Or.inr behind
        · rw [if_neg isLeft, if_neg isRight]
          exact ih _

omit [DecidableEq Field] in
theorem le_foldl_ends (free : ℕ) (layout : Struct Field) :
    free ≤ layout.foldl (fun free entry => entry.2.start free + entry.2.width) free := by
  induction layout generalizing free with
  | nil => exact le_rfl
  | cons entry members ih =>
      exact (Member.le_start free entry.2).trans ((Nat.le_add_right _ _).trans (ih _))

theorem spanFrom_le (field : Field) (free : ℕ) (layout : Struct Field) :
    (spanFrom field free layout).1 + (spanFrom field free layout).2 ≤
      layout.foldl (fun free entry => entry.2.start free + entry.2.width) free := by
  induction layout generalizing free with
  | nil => exact Nat.zero_le _
  | cons entry members ih =>
      rw [spanFrom, List.foldl_cons]
      split
      case isTrue => exact le_foldl_ends _ members
      case isFalse => exact ih _

theorem le_foldl_max (first : ℕ) (sizes : List ℕ) : first ≤ sizes.foldl max first := by
  induction sizes generalizing first with
  | nil => exact le_rfl
  | cons size sizes ih => exact (le_max_left first size).trans (ih _)

/-- Every member lies within the size of the struct. -/
theorem span_le (layout : Struct Field) (field : Field) :
    (layout.span field).1 + (layout.span field).2 ≤ 8 * layout.sizeOf := by
  have aligned := le_foldl_max 1 (layout.map fun entry => entry.2.size)
  have bytes : 8 ∣ roundUp layout.ends (8 * (layout.map fun entry => entry.2.size).foldl max 1) :=
    (Nat.dvd_mul_right 8 _).trans (dvd_roundUp (by omega) _)
  calc (layout.span field).1 + (layout.span field).2
      ≤ layout.ends := spanFrom_le field 0 layout
    _ ≤ roundUp layout.ends (8 * (layout.map fun entry => entry.2.size).foldl max 1) :=
        Nat.le_add_right _ _
    _ = 8 * layout.sizeOf := (Nat.mul_div_cancel' bytes).symm

variable {layout : Struct Field} {memory : Memory} {base value : ℕ} {field other : Field}
  {assignments : List (Field × ℕ)}

theorem load_store_self : layout.load (layout.store memory base field value) base field =
    value % 2 ^ (layout.span field).2 :=
  Memory.load_store_self

/-- An assignment to a member leaves the other ones as they are. -/
theorem load_store_of_ne (distinct : other ≠ field) :
    layout.load (layout.store memory base field value) base other =
      layout.load memory base other := by
  apply Memory.load_store_of_disjoint
  rcases spanFrom_disjoint distinct 0 layout with before | behind
  · exact Or.inl (by simp only [span]; omega)
  · exact Or.inr (by simp only [span]; omega)

theorem load_assign_of_notMem (untouched : field ∉ assignments.map Prod.fst) :
    layout.load (layout.assign memory base assignments) base field =
      layout.load memory base field := by
  induction assignments generalizing memory with
  | nil => rfl
  | cons entry assignments ih =>
      rw [List.map_cons, List.mem_cons, not_or] at untouched
      rw [assign, List.foldl_cons, ← assign, ih untouched.2, load_store_of_ne untouched.1]

/-- Each member has the value of its assignment when no member is assigned twice. -/
theorem load_assign (once : (assignments.map Prod.fst).Nodup)
    (assigned : (field, value) ∈ assignments) :
    layout.load (layout.assign memory base assignments) base field =
      value % 2 ^ (layout.span field).2 := by
  induction assignments generalizing memory with
  | nil => cases assigned
  | cons entry assignments ih =>
      rw [List.map_cons, List.nodup_cons] at once
      rw [assign, List.foldl_cons, ← assign]
      rcases List.mem_cons.mp assigned with rfl | later
      · rw [load_assign_of_notMem once.1, load_store_self]
      · exact ih once.2 later

/-- A struct is not changed by assignments to one that lies behind it. -/
theorem load_assign_behind {Other : Type*} [DecidableEq Other] {behind : Struct Other}
    {place : ℕ} {changes : List (Other × ℕ)} (apart : base + layout.sizeOf ≤ place) :
    layout.load (behind.assign memory place changes) base field =
      layout.load memory base field := by
  induction changes generalizing memory with
  | nil => rfl
  | cons entry changes ih =>
      have within := span_le layout field
      rw [assign, List.foldl_cons, ← assign, ih]
      exact Memory.load_store_of_disjoint (Or.inl (by omega))

end Struct

end Layout

end NetLab.Posix
