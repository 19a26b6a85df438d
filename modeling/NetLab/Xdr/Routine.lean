import NetLab.Posix.Bytes
import Mathlib.Data.Vector.Basic
import Mathlib.Tactic.Common

/-!
# Routines of XDR

A routine takes a stream and an object. It writes the object to a stream that encodes, stores what
it reads from a stream that decodes into the object, and returns whether it could. One routine thus
serves both ends of a connection.

`Fixed` says all that a routine does whose objects take up the same number of bytes each, and comes
with one rule for each way to put routines together. A `Format` is a routine that loses nothing.
-/

namespace NetLab.Xdr

open NetLab.Posix

universe u v

variable {Object : Type u} {Record : Type v}

/-- A stream with its operation: what was written and how many bytes there is room for, or the
bytes that are left to be read. -/
inductive Stream where
  | encoding (written : List Byte) (room : ℕ)
  | decoding (input : List Byte)
  | freeing
deriving DecidableEq

/-- What a routine returns, with the stream and the object as it leaves them. -/
structure Passed (Object : Type u) where
  ok : Bool
  stream : Stream
  object : Object

abbrev Routine (Object : Type u) :=
  Stream → Object → Passed Object

/-- The four bytes of an integer, most significant byte first. -/
def bigEndian (value : BitVec 32) : List Byte :=
  [value.extractLsb' 24 8, value.extractLsb' 16 8, value.extractLsb' 8 8, value.extractLsb' 0 8]

/-- The integer that a piece of memory begins with. -/
def fromBigEndian : List Byte → BitVec 32
  | first :: second :: third :: fourth :: _ => first ++ second ++ third ++ fourth
  | _ => 0#32

@[simp]
theorem length_bigEndian (value : BitVec 32) : (bigEndian value).length = 4 :=
  rfl

@[simp]
theorem fromBigEndian_append (value : BitVec 32) (rest : List Byte) :
    fromBigEndian (bigEndian value ++ rest) = value := by
  simp only [bigEndian, List.cons_append, fromBigEndian]
  rw [BitVec.extractLsb'_append_extractLsb'_eq_extractLsb' (by rfl),
    BitVec.extractLsb'_append_extractLsb'_eq_extractLsb' (by rfl),
    BitVec.extractLsb'_append_extractLsb'_eq_extractLsb' (by rfl)]
  exact BitVec.extractLsb'_eq_self

theorem fromBigEndian_take (input : List Byte) :
    fromBigEndian (input.take 4) = fromBigEndian input := by
  match input with
  | [] | [_] | [_, _] | [_, _, _] => rfl
  | _ :: _ :: _ :: _ :: _ => rfl

/-- `xdr_int` and `xdr_u_int` -/
def xdrInt : Routine (BitVec 32)
  | .encoding written room, value =>
      if 4 ≤ room then ⟨true, .encoding (written ++ bigEndian value) (room - 4), value⟩
      else ⟨false, .encoding written room, value⟩
  | .decoding input, value =>
      if 4 ≤ input.length then ⟨true, .decoding (input.drop 4), fromBigEndian input⟩
      else ⟨false, .decoding input, value⟩
  | .freeing, value => ⟨true, .freeing, value⟩

/-- `xdr_char`: a `char` travels as the `int` that it is converted to, with its sign. -/
def xdrChar : Routine Byte := fun stream letter =>
  let passed := xdrInt stream (letter.signExtend 32)
  ⟨passed.ok, passed.stream, if passed.ok then passed.object.setWidth 8 else letter⟩

namespace Routine

/-- `if (!first) return FALSE; return second;` -/
def andThen (first second : Routine Object) : Routine Object := fun stream object =>
  let passed := first stream object
  if passed.ok then second passed.stream passed.object else passed

/-- A routine applied to a member of a record. -/
def member (get : Record → Object) (set : Object → Record → Record) (routine : Routine Object) :
    Routine Record := fun stream record =>
  let passed := routine stream (get record)
  ⟨passed.ok, passed.stream, set passed.object record⟩

/-- A routine applied to one object after the other, until it fails. -/
def each (routine : Routine Object) : Stream → List Object → Passed (List Object)
  | stream, [] => ⟨true, stream, []⟩
  | stream, object :: objects =>
      let passed := routine stream object
      if passed.ok then
        let rest := routine.each passed.stream objects
        ⟨rest.ok, rest.stream, passed.object :: rest.object⟩
      else ⟨false, passed.stream, passed.object :: objects⟩

theorem length_each (routine : Routine Object) (stream : Stream) (objects : List Object) :
    (routine.each stream objects).object.length = objects.length := by
  induction objects generalizing stream with
  | nil => rfl
  | cons object objects ih =>
      simp only [each]
      split
      case isTrue => exact congrArg (· + 1) (ih _)
      case isFalse => rfl

end Routine

/-- `xdr_vector` -/
def xdrVector {count : ℕ} (routine : Routine Object) : Routine (Vector Object count) :=
  fun stream objects =>
    let passed := routine.each stream objects.toList
    ⟨passed.ok, passed.stream,
      ⟨passed.object.toArray, (routine.length_each stream objects.toList).trans (by simp)⟩⟩

/-- What a routine does whose objects all take up `width` bytes: it writes the `image` of an object,
and it makes an object by `read` of as many bytes and of the object that it is given. -/
structure Fixed (routine : Routine Object) (width : ℕ) (image : Object → List Byte)
    (read : List Byte → Object → Object) : Prop where
  length_image : ∀ object, (image object).length = width
  encode : ∀ written room object, width ≤ room → routine (.encoding written room) object =
    ⟨true, .encoding (written ++ image object) (room - width), object⟩
  encode_fails : ∀ written room object, room < width →
    (routine (.encoding written room) object).ok = false
  decode : ∀ input object, width ≤ input.length → routine (.decoding input) object =
    ⟨true, .decoding (input.drop width), read (input.take width) object⟩
  decode_fails : ∀ input object, input.length < width →
    (routine (.decoding input) object).ok = false
  free : ∀ object, routine .freeing object = ⟨true, .freeing, object⟩

theorem fixed_xdrInt : Fixed xdrInt 4 bigEndian fun bytes _ => fromBigEndian bytes := by
  constructor
  case length_image => exact length_bigEndian
  case encode =>
    intro written room value fits
    simp only [xdrInt, if_pos fits]
  case encode_fails =>
    intro written room value short
    simp only [xdrInt, if_neg (Nat.not_le_of_lt short)]
  case decode =>
    intro input value fits
    simp only [xdrInt, if_pos fits, fromBigEndian_take]
  case decode_fails =>
    intro input value short
    simp only [xdrInt, if_neg (Nat.not_le_of_lt short)]
  case free => exact fun _ => rfl

theorem setWidth_signExtend (letter : Byte) : (letter.signExtend 32).setWidth 8 = letter := by
  ext index inside
  simp only [BitVec.getElem_setWidth, BitVec.getLsbD_signExtend, inside, if_true,
    BitVec.getLsbD_eq_getElem inside, decide_eq_true (inside.trans (by decide : 8 < 32)),
    Bool.true_and]

theorem fixed_xdrChar : Fixed xdrChar 4 (fun letter => bigEndian (letter.signExtend 32))
    fun bytes _ => (fromBigEndian bytes).setWidth 8 := by
  constructor
  case length_image => exact fun _ => rfl
  case encode =>
    intro written room letter fits
    simp only [xdrChar, fixed_xdrInt.encode written room _ fits, if_true, setWidth_signExtend]
  case encode_fails =>
    intro written room letter short
    exact fixed_xdrInt.encode_fails written room _ short
  case decode =>
    intro input letter fits
    simp only [xdrChar, fixed_xdrInt.decode input _ fits, if_true]
  case decode_fails =>
    intro input letter short
    exact fixed_xdrInt.decode_fails input _ short
  case free =>
    intro letter
    simp only [xdrChar, fixed_xdrInt.free, if_true, setWidth_signExtend]

namespace Fixed

variable {routine : Routine Object} {width : ℕ} {image : Object → List Byte}
  {read : List Byte → Object → Object}

theorem encode_ok (fixed : Fixed routine width image read) (written : List Byte) (room : ℕ)
    (object : Object) : (routine (.encoding written room) object).ok = true ↔ width ≤ room := by
  rcases Nat.lt_or_ge room width with short | fits
  · simp [fixed.encode_fails written room object short, short]
  · simp [fixed.encode written room object fits, fits]

theorem decode_ok (fixed : Fixed routine width image read) (input : List Byte) (object : Object) :
    (routine (.decoding input) object).ok = true ↔ width ≤ input.length := by
  rcases Nat.lt_or_ge input.length width with short | fits
  · simp [fixed.decode_fails input object short, short]
  · simp [fixed.decode input object fits, fits]

/-- Two routines on one object: the second one starts where the first one stops. -/
theorem andThen {first second : Routine Object} {left right : ℕ} {front back : Object → List Byte}
    {readFront readBack : List Byte → Object → Object} (one : Fixed first left front readFront)
    (two : Fixed second right back readBack) :
    Fixed (first.andThen second) (left + right) (fun object => front object ++ back object)
      fun bytes object => readBack (bytes.drop left) (readFront (bytes.take left) object) := by
  constructor
  case length_image =>
    intro object
    rw [List.length_append, one.length_image, two.length_image]
  case encode =>
    intro written room object fits
    simp only [Routine.andThen, one.encode written room object (by omega), if_true,
      two.encode _ (room - left) object (by omega), List.append_assoc, Nat.sub_sub]
  case encode_fails =>
    intro written room object short
    rcases Nat.lt_or_ge room left with early | late
    · have fails := one.encode_fails written room object early
      simp only [Routine.andThen, fails, Bool.false_eq_true, if_false]
    · simp only [Routine.andThen, one.encode written room object late, if_true]
      exact two.encode_fails _ _ _ (by omega)
  case decode =>
    intro input object fits
    have behind : right ≤ (input.drop left).length := by
      rw [List.length_drop]
      omega
    simp only [Routine.andThen, one.decode input object (by omega), if_true,
      two.decode (input.drop left) _ behind, List.drop_drop, List.take_take, List.drop_take,
      Nat.add_sub_cancel_left, Nat.min_eq_left (Nat.le_add_right left right)]
  case decode_fails =>
    intro input object short
    rcases Nat.lt_or_ge input.length left with early | late
    · have fails := one.decode_fails input object early
      simp only [Routine.andThen, fails, Bool.false_eq_true, if_false]
    · have behind : (input.drop left).length < right := by
        rw [List.length_drop]
        omega
      simp only [Routine.andThen, one.decode input object late, if_true]
      exact two.decode_fails _ _ behind
  case free =>
    intro object
    simp only [Routine.andThen, one.free, if_true, two.free]

theorem member {get : Record → Object} {set : Object → Record → Record}
    (fixed : Fixed routine width image read)
    (set_get : ∀ record, set (get record) record = record) :
    Fixed (routine.member get set) width (fun record => image (get record))
      fun bytes record => set (read bytes (get record)) record := by
  constructor
  case length_image => exact fun record => fixed.length_image (get record)
  case encode =>
    intro written room record fits
    simp only [Routine.member, fixed.encode written room _ fits, set_get]
  case encode_fails => exact fun written room record => fixed.encode_fails written room (get record)
  case decode =>
    intro input record fits
    simp only [Routine.member, fixed.decode input _ fits]
  case decode_fails => exact fun input record => fixed.decode_fails input (get record)
  case free =>
    intro record
    simp only [Routine.member, fixed.free, set_get]

/-- The objects that `read` makes of as many pieces of the bytes as there are objects. -/
def readEach (width : ℕ) (read : List Byte → Object → Object) :
    List Byte → List Object → List Object
  | _, [] => []
  | bytes, object :: objects =>
      read (bytes.take width) object :: readEach width read (bytes.drop width) objects

theorem length_readEach (bytes : List Byte) (objects : List Object) :
    (readEach width read bytes objects).length = objects.length := by
  induction objects generalizing bytes with
  | nil => rfl
  | cons object objects ih => exact congrArg (· + 1) (ih _)

theorem readEach_images (fixed : Fixed routine width image read)
    (read_image : ∀ object before, read (image object) before = object) {objects : List Object}
    {others : List Object} (same : others.length = objects.length) :
    readEach width read (objects.flatMap image) others = objects := by
  induction objects generalizing others with
  | nil =>
      rw [List.length_eq_zero_iff.mp same]
      rfl
  | cons object objects ih =>
      match others, same with
      | other :: others, same =>
          rw [List.flatMap_cons, readEach, List.take_left' (fixed.length_image object),
            List.drop_left' (fixed.length_image object), read_image,
            ih (Nat.succ.inj same)]

theorem each (fixed : Fixed routine width image read) (count : ℕ) :
    ∀ objects : List Object, objects.length = count →
      (∀ written room, count * width ≤ room → routine.each (.encoding written room) objects =
        ⟨true, .encoding (written ++ objects.flatMap image) (room - count * width), objects⟩) ∧
      (∀ written room, room < count * width →
        (routine.each (.encoding written room) objects).ok = false) ∧
      (∀ input, count * width ≤ input.length → routine.each (.decoding input) objects =
        ⟨true, .decoding (input.drop (count * width)),
          readEach width read (input.take (count * width)) objects⟩) ∧
      (∀ input, input.length < count * width →
        (routine.each (.decoding input) objects).ok = false) ∧
      routine.each .freeing objects = ⟨true, .freeing, objects⟩ := by
  induction count with
  | zero =>
      intro objects none
      rw [List.length_eq_zero_iff.mp none]
      simp [Routine.each, readEach]
  | succ count ih =>
      intro objects counted
      match objects, counted with
      | object :: objects, counted =>
          have ⟨encodes, short, decodes, ends, frees⟩ := ih objects (Nat.succ.inj counted)
          rw [Nat.succ_mul]
          refine ⟨?_, ?_, ?_, ?_, ?_⟩
          · intro written room fits
            simp only [Routine.each, fixed.encode written room object (by omega), if_true,
              encodes _ (room - width) (by omega), List.flatMap_cons, List.append_assoc,
              Nat.sub_sub, Nat.add_comm width]
          · intro written room less
            rcases Nat.lt_or_ge room width with early | late
            · have fails := fixed.encode_fails written room object early
              simp only [Routine.each, fails, Bool.false_eq_true, if_false]
            · simp only [Routine.each, fixed.encode written room object late, if_true]
              exact short _ _ (by omega)
          · intro input fits
            have behind : count * width ≤ (input.drop width).length := by
              rw [List.length_drop]
              omega
            simp only [Routine.each, fixed.decode input object (by omega), if_true,
              decodes (input.drop width) behind, List.drop_drop, readEach, List.take_take,
              List.drop_take, Nat.add_comm width, Nat.add_sub_cancel_right,
              Nat.min_eq_left (Nat.le_add_left width (count * width))]
          · intro input less
            rcases Nat.lt_or_ge input.length width with early | late
            · have fails := fixed.decode_fails input object early
              simp only [Routine.each, fails, Bool.false_eq_true, if_false]
            · have behind : (input.drop width).length < count * width := by
                rw [List.length_drop]
                omega
              simp only [Routine.each, fixed.decode input object late, if_true]
              exact ends _ behind
          · simp only [Routine.each, fixed.free, if_true, frees]

/-- `readEach` on a vector. -/
def readVector (width : ℕ) (read : List Byte → Object → Object) {count : ℕ} (bytes : List Byte)
    (objects : Vector Object count) : Vector Object count :=
  ⟨(readEach width read bytes objects.toList).toArray,
    (@length_readEach Object width read bytes objects.toList).trans (by simp)⟩

theorem vector (fixed : Fixed routine width image read) (count : ℕ) :
    Fixed (@xdrVector Object count routine) (count * width)
      (fun objects => objects.toList.flatMap image) (readVector width read) := by
  have counted (objects : Vector Object count) : objects.toList.length = count := by simp
  constructor
  case length_image =>
    intro objects
    rw [List.length_flatMap, List.map_congr_left fun object _ => fixed.length_image object,
      List.map_const', counted, List.sum_replicate_nat]
  case encode =>
    intro written room objects fits
    have ⟨encodes, _⟩ := fixed.each count objects.toList (counted objects)
    simp only [xdrVector, encodes written room fits]
    congr 1
  case encode_fails =>
    intro written room objects short
    exact (fixed.each count objects.toList (counted objects)).2.1 written room short
  case decode =>
    intro input objects fits
    have ⟨_, _, decodes, _⟩ := fixed.each count objects.toList (counted objects)
    simp only [xdrVector, decodes input fits, readVector]
  case decode_fails =>
    intro input objects short
    exact (fixed.each count objects.toList (counted objects)).2.2.2.1 input short
  case free =>
    intro objects
    have ⟨_, _, _, _, frees⟩ := fixed.each count objects.toList (counted objects)
    simp only [xdrVector, frees]
    congr 1

theorem readVector_images (fixed : Fixed routine width image read)
    (read_image : ∀ object before, read (image object) before = object) {count : ℕ}
    (objects others : Vector Object count) :
    readVector width read (objects.toList.flatMap image) others = objects := by
  apply Vector.toList_inj.mp
  exact fixed.readEach_images read_image (by simp)

end Fixed

/-- A routine that loses nothing: from the image of an object it makes this object again, whatever
was there before. -/
structure Format (Object : Type u) where
  routine : Routine Object
  width : ℕ
  image : Object → List Byte
  read : List Byte → Object → Object
  fixed : Fixed routine width image read
  read_image : ∀ object before, read (image object) before = object

namespace Format

def int : Format (BitVec 32) where
  routine := xdrInt
  width := 4
  image := bigEndian
  read := fun bytes _ => fromBigEndian bytes
  fixed := fixed_xdrInt
  read_image := by
    intro value _
    simpa using fromBigEndian_append value []

def char : Format Byte where
  routine := xdrChar
  width := 4
  image := fun letter => bigEndian (letter.signExtend 32)
  read := fun bytes _ => (fromBigEndian bytes).setWidth 8
  fixed := fixed_xdrChar
  read_image := by
    intro letter _
    have returns := fromBigEndian_append (letter.signExtend 32) []
    rw [List.append_nil] at returns
    rw [returns, setWidth_signExtend]

def vector (count : ℕ) (item : Format Object) : Format (Vector Object count) where
  routine := xdrVector item.routine
  width := count * item.width
  image := fun objects => objects.toList.flatMap item.image
  read := Fixed.readVector item.width item.read
  fixed := item.fixed.vector count
  read_image := item.fixed.readVector_images item.read_image

end Format

/-- What a routine writes into `room` bytes, if it succeeds. -/
def Routine.encoded (routine : Routine Object) (room : ℕ) (object : Object) : Option (List Byte) :=
  let passed := routine (.encoding [] room) object
  match passed.ok, passed.stream with
  | true, .encoding written _ => some written
  | _, _ => none

/-- What a routine makes of the bytes of a message and of an object, if it succeeds. -/
def Routine.decoded (routine : Routine Object) (input : List Byte) (before : Object) :
    Option Object :=
  let passed := routine (.decoding input) before
  if passed.ok then some passed.object else none

/-- Objects come back as they were written, and either way exactly `width` bytes are needed. -/
structure Survives (routine : Routine Object) (width : ℕ) : Prop where
  encodes_iff : ∀ written room object,
    (routine (.encoding written room) object).ok = true ↔ width ≤ room
  decodes_iff : ∀ input before, (routine (.decoding input) before).ok = true ↔ width ≤ input.length
  returns : ∀ written room object before rest, width ≤ room → ∃ bytes,
    bytes.length = width ∧ routine (.encoding written room) object =
      ⟨true, .encoding (written ++ bytes) (room - width), object⟩ ∧
    routine (.decoding (bytes ++ rest)) before = ⟨true, .decoding rest, object⟩

namespace Format

variable (format : Format Object)

theorem survives : Survives format.routine format.width := by
  constructor
  case encodes_iff => exact format.fixed.encode_ok
  case decodes_iff => exact format.fixed.decode_ok
  case returns =>
    intro written room object before rest fits
    have length := format.fixed.length_image object
    have inside : format.width ≤ (format.image object ++ rest).length := by
      rw [List.length_append]
      omega
    refine ⟨format.image object, length, format.fixed.encode written room object fits, ?_⟩
    rw [format.fixed.decode _ before inside, List.take_left' length, List.drop_left' length,
      format.read_image]

theorem encoded_eq (room : ℕ) (object : Object) : format.routine.encoded room object =
    if format.width ≤ room then some (format.image object) else none := by
  split
  case isTrue fits =>
    simp only [Routine.encoded, format.fixed.encode [] room object fits, List.nil_append]
  case isFalse short =>
    have fails := format.fixed.encode_fails [] room object (Nat.lt_of_not_le short)
    simp only [Routine.encoded, fails]

theorem decoded_image (object before : Object) :
    format.routine.decoded (format.image object) before = some object := by
  have length := format.fixed.length_image object
  simp only [Routine.decoded, format.fixed.decode _ before length.ge, if_true,
    List.take_of_length_le length.le, format.read_image]

theorem isSome_decoded_iff (input : List Byte) (before : Object) :
    (format.routine.decoded input before).isSome = true ↔ format.width ≤ input.length := by
  rw [← format.fixed.decode_ok input before, Routine.decoded]
  cases (format.routine (.decoding input) before).ok <;> simp

end Format

end NetLab.Xdr
