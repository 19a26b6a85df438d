import NetLab.Packets.Dump
import NetLab.Structures.Words

/-!
# The lines of a dump

`PrintData` closes a full line when it comes to the first byte behind it, and the last line at
the last byte. A reader of the log finds the bytes of a line in front of column 60, as pairs of
digits, and the same ones as characters behind it.
-/

namespace NetLab.Packets

open NetLab.Imperative NetLab.Posix NetLab.Structures

/-- What a call of `PrintData` appends to the log. -/
def printDataText (buffer : Memory) (base : ℕ) (size : ℤ) : List Byte :=
  (printData base size).flatMap (Item.print buffer)

def newline : Byte :=
  0xA#8

def hexCode (byte : Byte) : List Byte :=
  [hexDigit (byte.toNat / 16), hexDigit (byte.toNat % 16)]

/-- The character that stands for a byte. -/
def character (byte : Byte) : Byte :=
  if 32#8 ≤ byte ∧ byte ≤ 128#8 then byte else 0x2E#8

/-- The column at which the characters of a line start. -/
def characterColumn : ℕ :=
  60

/-- The fields in front of the characters. -/
def hexFields (line : List Byte) : List (List Byte) :=
  words isSpace (line.take characterColumn)

def digitValue (digit : Byte) : ℕ :=
  if digit ≤ 0x39#8 then digit.toNat - 0x30 else digit.toNat - 0x37

def readCode (code : List Byte) : Byte :=
  BitVec.ofNat 8 (code.foldl (fun value digit => 16 * value + digitValue digit) 0)

/-- The bytes that a reader of the log takes from the fields of its lines. -/
def readBack (text : List Byte) : List Byte :=
  (lines newline text).flatMap fun line => (hexFields line).map readCode

/-- The bytes of line `r`. -/
def lineBytes (bytes : List Byte) (r : ℕ) : List Byte :=
  (bytes.drop (16 * r)).take 16

/-- A line shows these bytes. -/
structure ShowsBytes (bytes line : List Byte) : Prop where
  fields : hexFields line = bytes.map hexCode
  characters : line.drop characterColumn = bytes.map character

/-- The text is a dump of the bytes, sixteen on each line but the last. -/
structure IsHexDump (bytes text : List Byte) : Prop where
  ends : text = (lines newline text).flatMap fun line => line ++ [newline]
  count : (lines newline text).length = (bytes.length + 15) / 16
  line : ∀ r (inside : r < (lines newline text).length),
    ShowsBytes (lineBytes bytes r) (lines newline text)[r]
  recovers : readBack text = bytes

section Items

variable {base size i : ℕ}

/-- What is written for the addresses of a line. -/
def lineItems (addresses : List ℕ) : List Item :=
  Item.fixed "   " :: (addresses.map Item.hex ++
    (List.replicate (16 - addresses.length) (Item.fixed "   ") ++
      Item.fixed "         " :: (addresses.map Item.letter ++ [Item.fixed "\n"])))

def fullLines (base count : ℕ) : List Item :=
  (List.range count).flatMap fun r => lineItems (List.range' (base + 16 * r) 16)

/-- The log when the line of byte `i` has been opened and the byte is not yet shown. -/
def beforeByte (base i : ℕ) : List Item :=
  fullLines base (i / 16) ++
    Item.fixed "   " :: (List.range' (base + 16 * (i / 16)) (i % 16)).map Item.hex

/-- The log with `count` bytes shown and the line of the last one still open. -/
def openLog (base : ℕ) : ℕ → List Item
  | 0 => []
  | i + 1 => beforeByte base i ++ [Item.hex (base + i)]

theorem lineItems_close {first count : ℕ} :
    Item.fixed "   " :: ((List.range' (base + first) count).map Item.hex ++
      (List.replicate (16 - count) (Item.fixed "   ") ++ column base first count)) =
        lineItems (List.range' (base + first) count) := by
  rw [lineItems, List.length_range', column]

theorem fullLines_succ (base count : ℕ) :
    fullLines base (count + 1) =
      fullLines base count ++ lineItems (List.range' (base + 16 * count) 16) := by
  rw [fullLines, List.range_succ, List.flatMap_append, List.flatMap_singleton, fullLines]

theorem openLog_succ (base i : ℕ) : openLog base (i + 1) = fullLines base (i / 16) ++
    Item.fixed "   " :: (List.range' (base + 16 * (i / 16)) (i % 16 + 1)).map Item.hex := by
  have address : base + 16 * (i / 16) + i % 16 = base + i := by omega
  rw [openLog, beforeByte, List.range'_1_concat, address, List.map_append, List.append_assoc]
  rfl

/-- The first byte of a line closes the one before and opens its own. -/
theorem beforeByte_eq (base i : ℕ) :
    openLog base i ++ ((if i ≠ 0 ∧ i % 16 = 0 then column base (i - 16) 16 else []) ++
      (if i % 16 = 0 then [Item.fixed "   "] else [])) = beforeByte base i := by
  rcases i with _ | i
  · rfl
  · rw [openLog_succ]
    by_cases line : (i + 1) % 16 = 0
    · have next : (i + 1) / 16 = i / 16 + 1 := by omega
      have last : i % 16 + 1 = 16 := by omega
      have first : i + 1 - 16 = 16 * (i / 16) := by omega
      rw [if_pos ⟨Nat.succ_ne_zero i, line⟩, if_pos line, beforeByte, next, fullLines_succ,
        line, last, first, ← lineItems_close]
      simp
    · have same : (i + 1) / 16 = i / 16 := by omega
      have count : (i + 1) % 16 = i % 16 + 1 := by omega
      rw [if_neg fun both => line both.2, if_neg line, beforeByte, same, count]
      simp

theorem dumpByte_openLog (base size i : ℕ) :
    dumpByte base size i (openLog base i) = openLog base (i + 1) ++
      if i + 1 = size then
        List.replicate (15 - i % 16) (Item.fixed "   ") ++ column base (i - i % 16) (i % 16 + 1)
      else [] := by
  rw [openLog, ← beforeByte_eq, dumpByte]
  simp

/-- The items of a call, line by line. -/
theorem printData_eq (base size : ℕ) :
    printData base size = (List.range ((size + 15) / 16)).flatMap fun r =>
      lineItems (List.range' (base + 16 * r) (min 16 (size - 16 * r))) := by
  have log : ∀ count ≤ size, count ≠ size ∨ size = 0 →
      forUp 0 count (dumpByte base size) [] = openLog base count := by
    intro count
    induction count with
    | zero =>
        intro _ _
        exact forUp_of_le le_rfl _ _
    | succ count ih =>
        intro le open_
        rw [forUp_succ (Nat.zero_le _), ih (by omega) (by omega), dumpByte_openLog,
          if_neg (by omega), List.append_nil]
  rw [printData, Int.toNat_natCast]
  rcases size with _ | i
  · exact forUp_of_le le_rfl _ _
  · have count : (i + 1 + 15) / 16 = i / 16 + 1 := by omega
    have start : i - i % 16 = 16 * (i / 16) := by omega
    have rest : 15 - i % 16 = 16 - (i % 16 + 1) := by omega
    have lastCount : min 16 (i + 1 - 16 * (i / 16)) = i % 16 + 1 := by omega
    have full : (List.range (i / 16)).flatMap (fun r =>
        lineItems (List.range' (base + 16 * r) (min 16 (i + 1 - 16 * r)))) =
          fullLines base (i / 16) := by
      apply List.flatMap_congr
      intro r listed
      have below := List.mem_range.mp listed
      have whole : min 16 (i + 1 - 16 * r) = 16 := by omega
      rw [whole]
    rw [forUp_succ (Nat.zero_le _), log i (by omega) (by omega), dumpByte_openLog, if_pos rfl,
      openLog_succ, start, rest, count, List.range_succ, List.flatMap_append,
      List.flatMap_singleton, full, lastCount, ← lineItems_close]
    simp

end Items

section Text

variable {bytes : List Byte}

/-- A line without its end, in front of the characters. -/
def fieldText (bytes : List Byte) : List Byte :=
  literal "   " ++ (bytes.flatMap (fun byte => literal " " ++ hexCode byte) ++
    ((List.replicate (16 - bytes.length) (literal "   ")).flatten ++ literal "         "))

def dumpLine (bytes : List Byte) : List Byte :=
  fieldText bytes ++ bytes.map character

theorem print_letter (buffer : Memory) (index : ℕ) :
    (Item.letter index).print buffer = [character (buffer index)] := by
  rw [Item.print, character]
  split <;> rfl

theorem print_lineItems (buffer : Memory) (addresses : List ℕ) :
    (lineItems addresses).flatMap (Item.print buffer) =
      dumpLine (addresses.map buffer) ++ [newline] := by
  have fields : (addresses.map Item.hex).flatMap (Item.print buffer) =
      (addresses.map buffer).flatMap fun byte => literal " " ++ hexCode byte := by
    rw [List.flatMap_map, List.flatMap_map]
    rfl
  have characters : (addresses.map Item.letter).flatMap (Item.print buffer) =
      (addresses.map buffer).map character := by
    rw [List.flatMap_map, List.map_map, ← List.flatMap_singleton' (List.map _ _), List.flatMap_map]
    apply List.flatMap_congr
    intro index _
    exact print_letter buffer index
  have spaces (count : ℕ) : (List.replicate count (Item.fixed "   ")).flatMap (Item.print buffer) =
      (List.replicate count (literal "   ")).flatten := by
    rw [List.flatMap_def, List.map_replicate]
    rfl
  rw [lineItems, List.flatMap_cons, List.flatMap_append, List.flatMap_append, List.flatMap_cons,
    List.flatMap_append, fields, characters, spaces, dumpLine, fieldText, List.length_map]
  simp only [List.append_assoc]
  rfl

/-- The fields with the blanks around them. -/
theorem fieldText_eq (bytes : List Byte) :
    fieldText bytes = List.replicate 3 0x20#8 ++
      (bytes.flatMap (fun byte => 0x20#8 :: hexCode byte) ++
        List.replicate (3 * (16 - bytes.length) + 9) 0x20#8) := by
  have three : literal "   " = List.replicate 3 0x20#8 := rfl
  have nine : literal "         " = List.replicate 9 0x20#8 := rfl
  rw [fieldText, three, nine, List.flatten_replicate_replicate, List.replicate_append_replicate,
    Nat.mul_comm]
  rfl

theorem length_fieldText (short : bytes.length ≤ 16) :
    (fieldText bytes).length = characterColumn := by
  have codes : (bytes.flatMap fun byte => 0x20#8 :: hexCode byte).length = bytes.length * 3 := by
    simp only [List.length_flatMap, hexCode, List.length_cons, List.length_nil, List.map_const',
      List.sum_replicate_nat]
  rw [fieldText_eq, List.length_append, List.length_append, codes, List.length_replicate,
    List.length_replicate, characterColumn]
  omega

theorem isSpace_hexDigit {digit : ℕ} (small : digit < 16) : isSpace (hexDigit digit) = false := by
  interval_cases digit <;> rfl

theorem isSpace_of_mem_hexCode {byte digit : Byte} (listed : digit ∈ hexCode byte) :
    isSpace digit = false := by
  rcases List.mem_cons.mp listed with rfl | later
  · exact isSpace_hexDigit (by omega)
  · rw [List.mem_singleton.mp later]
    exact isSpace_hexDigit (by omega)

theorem isSpace_of_mem_replicate {count : ℕ} {byte : Byte}
    (listed : byte ∈ List.replicate count 0x20#8) : isSpace byte = true := by
  rw [List.eq_of_mem_replicate listed]
  rfl

theorem readCode_hexCode (byte : Byte) : readCode (hexCode byte) = byte := by
  have value {digit : ℕ} (small : digit < 16) : digitValue (hexDigit digit) = digit := by
    interval_cases digit <;> rfl
  have high : byte.toNat / 16 < 16 := by omega
  have low : byte.toNat % 16 < 16 := by omega
  apply BitVec.eq_of_toNat_eq
  simp only [readCode, hexCode, List.foldl_cons, List.foldl_nil, value high, value low,
    BitVec.toNat_ofNat]
  omega

theorem words_codes {tail : List Byte} (blank : ∀ byte ∈ tail, isSpace byte = true)
    (bytes : List Byte) :
    words isSpace (bytes.flatMap (fun byte => 0x20#8 :: hexCode byte) ++ tail) =
      bytes.map hexCode := by
  induction bytes with
  | nil =>
      have nothing := words_append_of_spaces blank []
      rwa [List.append_nil] at nothing
  | cons byte bytes ih =>
      have nonempty : hexCode byte ≠ [] := List.cons_ne_nil _ _
      have stops : ∀ first ∈ (bytes.flatMap (fun byte => 0x20#8 :: hexCode byte) ++ tail).head?,
          isSpace first = true := by
        intro first head
        rcases bytes with _ | ⟨next, bytes⟩
        · exact blank first (List.mem_of_head? head)
        · cases head
          rfl
      rw [List.flatMap_cons, List.append_assoc, List.cons_append, words_cons_of_space rfl,
        words_append nonempty (fun _ => isSpace_of_mem_hexCode) stops, ih, List.map_cons]

theorem dumpLine_showsBytes (short : bytes.length ≤ 16) : ShowsBytes bytes (dumpLine bytes) := by
  have column := length_fieldText short
  constructor
  case fields =>
    rw [hexFields, dumpLine, ← column, List.take_left, fieldText_eq,
      words_append_of_spaces fun _ => isSpace_of_mem_replicate,
      words_codes fun _ => isSpace_of_mem_replicate]
  case characters => rw [dumpLine, ← column, List.drop_left]

theorem newline_notMem_dumpLine (bytes : List Byte) : newline ∉ dumpLine bytes := by
  have blanks (count : ℕ) : newline ∉ List.replicate count 0x20#8 := by
    intro listed
    exact absurd (List.eq_of_mem_replicate listed) (by decide)
  have codes (byte : Byte) : newline ∉ hexCode byte := by
    intro listed
    cases isSpace_of_mem_hexCode listed
  have characters (byte : Byte) : newline ≠ character byte := by
    rw [character]
    split
    case isTrue printed =>
      rintro rfl
      exact absurd printed.1 (by decide)
    case isFalse => decide
  rw [dumpLine, fieldText_eq]
  simp only [List.mem_append, List.mem_flatMap, List.mem_cons, List.mem_map, blanks, codes,
    or_false, false_or, not_or, not_exists, not_and]
  refine ⟨fun byte _ => by decide, ?_⟩
  intro byte _ shown
  exact characters byte shown.symm

end Text

theorem lineBytes_range' (buffer : Memory) (base size r : ℕ) :
    lineBytes ((List.range' base size).map buffer) r =
      (List.range' (base + 16 * r) (min 16 (size - 16 * r))).map buffer := by
  rw [lineBytes, ← List.map_drop, ← List.map_take, List.drop_range', Nat.mul_one]
  rcases Nat.le_total (size - 16 * r) 16 with last | full
  · rw [List.take_range'_of_length_le last, min_eq_right last]
  · rw [List.take_range'_of_length_ge full, min_eq_left full]

theorem flatMap_lineBytes (bytes : List Byte) (count : ℕ) :
    (List.range count).flatMap (lineBytes bytes) = bytes.take (16 * count) := by
  induction count with
  | zero => rfl
  | succ count ih =>
      rw [List.range_succ, List.flatMap_append, List.flatMap_singleton, ih, Nat.mul_succ,
        List.take_add, lineBytes]

/-- The lines of what a call writes. -/
theorem lines_printDataText (buffer : Memory) (base size : ℕ) :
    let dumped := (List.range ((size + 15) / 16)).map fun r =>
      dumpLine (lineBytes ((List.range' base size).map buffer) r)
    printDataText buffer base size = dumped.flatMap (fun line => line ++ [newline]) ∧
      lines newline (printDataText buffer base size) = dumped := by
  intro dumped
  have written : printDataText buffer base size =
      dumped.flatMap fun line => line ++ [newline] := by
    rw [printDataText, printData_eq, List.flatMap_assoc, List.flatMap_map]
    apply List.flatMap_congr
    intro r _
    rw [print_lineItems, lineBytes_range']
  refine ⟨written, ?_⟩
  rw [written]
  apply lines_flatMap
  intro line listed
  rcases List.mem_map.mp listed with ⟨r, _, rfl⟩
  exact newline_notMem_dumpLine _

/-- Every call of `PrintData` writes a dump of its bytes. -/
theorem printDataText_isHexDump (buffer : Memory) (base size : ℕ) :
    IsHexDump ((List.range' base size).map buffer) (printDataText buffer base size) := by
  rcases lines_printDataText buffer base size with ⟨written, read⟩
  have shows (r : ℕ) : ShowsBytes (lineBytes ((List.range' base size).map buffer) r)
      (dumpLine (lineBytes ((List.range' base size).map buffer) r)) :=
    dumpLine_showsBytes (List.length_take_le 16 _)
  constructor
  case ends => rw [read, written]
  case count => rw [read, List.length_map, List.length_range, List.length_map, List.length_range']
  case line =>
    intro r inside
    simp only [read, List.getElem_map, List.getElem_range]
    exact shows r
  case recovers =>
    have codes (bytes : List Byte) : (bytes.map hexCode).map readCode = bytes := by
      rw [List.map_map]
      exact (List.map_congr_left fun byte _ => readCode_hexCode byte).trans (List.map_id' bytes)
    rw [readBack, read, List.flatMap_map]
    calc (List.range ((size + 15) / 16)).flatMap (fun r => (hexFields (dumpLine
          (lineBytes ((List.range' base size).map buffer) r))).map readCode)
        = (List.range ((size + 15) / 16)).flatMap
            (lineBytes ((List.range' base size).map buffer)) := by
          apply List.flatMap_congr
          intro r _
          rw [(shows r).fields, codes]
      _ = ((List.range' base size).map buffer).take (16 * ((size + 15) / 16)) :=
          flatMap_lineBytes _ _
      _ = (List.range' base size).map buffer := by
          apply List.take_of_length_le
          rw [List.length_map, List.length_range']
          omega

end NetLab.Packets
